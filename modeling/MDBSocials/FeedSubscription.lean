import MDBSocials.AppMachine
import MDBSocials.ReferencePlatform

/-!
# The Subscription of the Feed

The feed is filled by the `childAdded` observer that `viewWillAppear` attaches at
`Posts`. This module is about what reaches `FeedViewController.posts` through it, over
all runs of the application: that nothing reaches it twice, and that nothing is missed.

`removeObserversForPostRef` detaches the observers at the root of the database, and
`fetchPosts` attaches its observer at the child `Posts`, so the clean-up before a new
subscription never detaches the old one.

## Main results

* `feed_at_most_once`: posts are shown once as long as the feed only subscribes while no
  observer is attached at `Posts`.
* `feed_shows_post_twice`: signing out and in again, and one new post, break it.
* `feed_at_least_once`: no post is missed as long as a sign-in never completes on a feed
  that counts as loaded while no observer is attached, and this condition is exact.
* `feed_misses_post`: a session lost under a loaded feed and the reply to a second tap
  on the log-in button break it.
-/

namespace MDBSocials

open App

namespace App

/-- The keys of the posts in the local view. -/
def postKeys (s : App) : Finset Key := (s.view.sub ["Posts"]).children

/-- An observer is attached at `Posts`. -/
def Subscribed (s : App) : Prop := ∃ o ∈ s.observers, o.location = ["Posts"]

instance (s : App) : Decidable s.Subscribed :=
  inferInstanceAs (Decidable (∃ o ∈ s.observers, o.location = ["Posts"]))

/-- Every attached observer is a `fetchPosts` observer, and the references in use are
those of allocated objects. -/
structure FeedInv (s : App) : Prop where
  locations : ∀ o ∈ s.observers, o.location = ["Posts"]
  allocated : s.Allocated

theorem feedInv_launch (u : Option Uid) (view : Node) : FeedInv (launch u view) :=
  ⟨nofun, allocated_launch u view⟩

/-! ### What the actions do to the subscription -/

/-- The clean-up detaches nothing: it looks at the root, and the observers are at
`Posts`. -/
theorem removeObserversForPostRef_eq {s : App}
    (hs : ∀ o ∈ s.observers, o.location = ["Posts"]) : s.removeObserversForPostRef = s := by
  have hkeep : s.observers.filter (·.location ≠ postsRef) = s.observers := by
    refine List.filter_eq_self.mpr fun o ho => ?_
    simp [hs o ho, postsRef]
  rw [removeObserversForPostRef, removeAllObservers, hkeep]

/-- The subscribing branch of `viewWillAppear`: the old observers stay beside the new
one. -/
theorem viewWillAppear_subscribing {s : App} (hs : FeedInv s)
    (h : s.Subscribes .viewWillAppear) :
    s.viewWillAppear =
      { s with
        feed := { s.feed with posts := [], postsLoaded := true }
        observers := s.observers ++ [⟨["Posts"], childSnapshots s.view ["Posts"]⟩] } := by
  have hcleared : ∀ o ∈ ({ s with feed.posts := [] } : App).observers,
      o.location = ["Posts"] := hs.locations
  rw [viewWillAppear, if_neg h.1, if_pos h.2]
  simp only [removeObserversForPostRef_eq hcleared]
  rfl

/-! ### At most once: the invariant -/

/-- Nobody deletes posts: the keys under `Posts` only become more. -/
def Grows (s : App) : Action → Prop
  | .viewChanged view => s.postKeys ⊆ (view.sub ["Posts"]).children
  | _ => True

instance (s : App) (a : Action) : Decidable (s.Grows a) := by
  rcases a <;> dsimp only [Grows] <;> infer_instance

/-- The feed subscribes only while no observer is attached at `Posts`. -/
def SubscribesAlone (s : App) (a : Action) : Prop := s.Subscribes a → ¬ s.Subscribed

instance (s : App) (a : Action) : Decidable (s.SubscribesAlone a) :=
  inferInstanceAs (Decidable (_ → _))

/-- The ids of the posts that the events queued for the observers will add. -/
def queuedIds (s : App) : List (Option Key) :=
  s.observers.flatMap fun o => o.queue.map fun snap => some snap.key

/-- At most one observer; no key is shown or queued twice, and all are under `Posts`. -/
structure OnceInv (s : App) : Prop extends FeedInv s where
  single : s.observers.length ≤ 1
  nodup : (s.postIds ++ s.queuedIds).Nodup
  known : ∀ id ∈ s.postIds ++ s.queuedIds, ∃ k ∈ s.postKeys, id = some k

/-- The keys of the events raised by a change of the view. -/
theorem map_key_raise (old new : Node) (o : Observer) :
    (o.raise old new).queue.map DataSnapshot.key = o.queue.map DataSnapshot.key ++
      (new.sub o.location).childKeys.filter fun k => k ∉ (old.sub o.location).children := by
  rw [Observer.raise, List.map_append, ← map_key_childSnapshots, List.filter_map]
  rfl

theorem OnceInv.of_eq {s t : App} (h : OnceInv s) (ht : FeedInv t)
    (hids : t.postIds = s.postIds) (hobs : t.observers = s.observers)
    (hview : t.view = s.view) : OnceInv t where
  toFeedInv := ht
  single := hobs ▸ h.single
  nodup := by rw [queuedIds, hids, hobs]; exact h.nodup
  known := by
    rw [queuedIds, postKeys, hids, hobs, hview]
    exact h.known

/-- Detaching every observer keeps what is shown. -/
theorem OnceInv.of_detached {s t : App} (h : OnceInv s) (ht : FeedInv t)
    (hids : t.postIds = s.postIds) (hobs : t.observers = []) (hview : t.view = s.view) :
    OnceInv t where
  toFeedInv := ht
  single := by simp [hobs]
  nodup := by
    rw [queuedIds, hids, hobs]
    simpa using (List.nodup_append'.mp h.nodup).1
  known id hid := by
    rw [queuedIds, hids, hobs] at hid
    rw [postKeys, hview]
    exact h.known id (List.mem_append_left _ (by simpa using hid))

theorem onceInv_launch (u : Option Uid) (view : Node) : OnceInv (launch u view) where
  toFeedInv := feedInv_launch u view
  single := Nat.zero_le 1
  nodup := List.nodup_nil
  known := nofun

/-- Growth of the view queues one event for each new key. -/
theorem OnceInv.viewChanged {s : App} {view : Node} (h : OnceInv s)
    (hgrow : Grows s (.viewChanged view)) (ht : FeedInv (s.viewChanged view)) :
    OnceInv (s.viewChanged view) := by
  have hids : (s.viewChanged view).postIds = s.postIds := rfl
  have hknown : ∀ id ∈ s.postIds ++ s.queuedIds,
      ∃ k ∈ (s.viewChanged view).postKeys, id = some k := fun id hid => by
    obtain ⟨k, hk, rfl⟩ := h.known id hid
    exact ⟨k, hgrow hk, rfl⟩
  rcases hobs : s.observers with _ | ⟨o, _ | ⟨o', os⟩⟩
  · -- nobody listens
    have hq : (s.viewChanged view).queuedIds = s.queuedIds := by
      simp [queuedIds, App.viewChanged, hobs]
    exact ⟨ht, by simp [App.viewChanged, hobs], hq ▸ hids ▸ h.nodup, hq ▸ hids ▸ hknown⟩
  · set added := (view.sub ["Posts"]).childKeys.filter fun k => k ∉ s.postKeys with hadded
    have hloc : o.location = ["Posts"] := h.locations o (by simp [hobs])
    have hq : (s.viewChanged view).queuedIds = s.queuedIds ++ added.map some := by
      have hraise : (o.raise s.view view).queue.map DataSnapshot.key =
          o.queue.map DataSnapshot.key ++ added := by
        rw [map_key_raise, hloc]
        rfl
      simpa [queuedIds, App.viewChanged, hobs, Function.comp_def] using
        congrArg (List.map some) hraise
    have hmem : ∀ k ∈ added, k ∈ (view.sub ["Posts"]).children ∧ k ∉ s.postKeys := by
      intro k hk
      simpa [hadded] using hk
    refine ⟨ht, by simp [App.viewChanged, hobs], ?_, ?_⟩
    · rw [hq, hids, ← List.append_assoc]
      refine List.nodup_append'.mpr ⟨h.nodup, ?_, ?_⟩
      · exact ((PathTree.nodup_childKeys _).filter _).map (Option.some_injective _)
      · -- what was shown or queued had a key before
        intro id hid hid'
        obtain ⟨k, hk, rfl⟩ := h.known id hid
        obtain ⟨k', hk', hkk'⟩ := List.mem_map.mp hid'
        obtain rfl := Option.some.inj hkk'
        exact (hmem k' hk').2 hk
    · rw [hq, hids, ← List.append_assoc]
      intro id hid
      rcases List.mem_append.mp hid with hid | hid
      · exact hknown id hid
      · obtain ⟨k, hk, rfl⟩ := List.mem_map.mp hid
        exact ⟨k, (hmem k hk).1, rfl⟩
  · have := h.single
    simp [hobs] at this

/-! ### At least once: the invariant -/

/-- Every key of the view is the id of a post in the feed, or the key of an event queued
for an attached observer. -/
def Covered (s : App) : Prop :=
  ∀ k ∈ s.postKeys, some k ∈ s.postIds ∨
    ∃ o ∈ s.observers, o.location = ["Posts"] ∧ k ∈ o.queue.map DataSnapshot.key

/-- A sign-in or sign-up completes only on an unloaded feed or while an observer is
attached. -/
def SignsInSubscribed (s : App) : Action → Prop
  | .signInReply _ true | .userCreated _ => s.feed.postsLoaded = true → s.Subscribed
  | _ => True

instance (s : App) (a : Action) : Decidable (s.SignsInSubscribed a) := by
  rcases a
  case signInReply uid succeeded =>
      rcases succeeded <;> dsimp only [SignsInSubscribed] <;> infer_instance
  all_goals
    dsimp only [SignsInSubscribed]
    infer_instance

/-- One observer alone covers every key that the feed lacks. -/
def CoveredBy (s : App) (o : Observer) : Prop :=
  o ∈ s.observers ∧
    ∀ k ∈ s.postKeys, some k ∈ s.postIds ∨ k ∈ o.queue.map DataSnapshot.key

/-- A loaded feed is covered by one of its observers, or its session has ended and with
it the observers. -/
structure CoverInv (s : App) : Prop extends FeedInv s where
  loaded : s.feed.postsLoaded = true →
    (∃ o, s.CoveredBy o) ∨ s.currentUser = none ∧ s.observers = []

theorem coverInv_launch (u : Option Uid) (view : Node) : CoverInv (launch u view) where
  toFeedInv := feedInv_launch u view
  loaded := nofun

theorem CoveredBy.of_eq {s t : App} {o : Observer} (h : s.CoveredBy o)
    (hids : t.postIds = s.postIds) (hobs : t.observers = s.observers)
    (hview : t.view = s.view) : t.CoveredBy o := by
  refine ⟨hobs ▸ h.1, ?_⟩
  rw [postKeys, hview, hids]
  exact h.2

/-- A change of the view raises an event for each key it adds. -/
theorem CoveredBy.viewChanged {s : App} {o : Observer} (hs : FeedInv s)
    (h : s.CoveredBy o) (view : Node) :
    (s.viewChanged view).CoveredBy (o.raise s.view view) := by
  refine ⟨List.mem_map_of_mem h.1, fun k hk => ?_⟩
  rw [map_key_raise, hs.locations o h.1]
  by_cases hold : k ∈ s.postKeys
  · exact (h.2 k hold).imp_right (List.mem_append_left _)
  · refine Or.inr (List.mem_append_right _ ?_)
    simpa using ⟨hk, hold⟩

/-- What keeps the feed, the observers and the view, and does not load the feed, keeps
the cover. -/
theorem CoverInv.of_eq {s t : App} (h : CoverInv s) (ht : FeedInv t)
    (hids : t.postIds = s.postIds) (hobs : t.observers = s.observers)
    (hview : t.view = s.view)
    (hloaded : t.feed.postsLoaded = true → s.feed.postsLoaded = true)
    (huser : s.currentUser = none → t.currentUser = none) : CoverInv t where
  toFeedInv := ht
  loaded hl := by
    rcases h.loaded (hloaded hl) with ⟨o, ho⟩ | ⟨hu, hnone⟩
    · exact Or.inl ⟨o, ho.of_eq hids hobs hview⟩
    · exact Or.inr ⟨huser hu, hobs ▸ hnone⟩

/-- Nothing covers a new key when no observer is attached. -/
theorem not_covered_of_unsubscribed {s : App} (h : s.observers = []) :
    ∃ view, ¬ (s.viewChanged view).Covered := by
  obtain ⟨k, hk⟩ := Infinite.exists_notMem_finset (s.postIds.filterMap id).toFinset
  refine ⟨s.view.set ["Posts", k] (.leaf (.bool true)), fun hc => ?_⟩
  have hkey : k ∈ (s.viewChanged (s.view.set ["Posts", k] (.leaf (.bool true)))).postKeys := by
    have hsub : (s.view.set ["Posts", k] (.leaf (.bool true))).sub ["Posts"] =
        (s.view.sub ["Posts"]).set [k] (.leaf (.bool true)) :=
      PathTree.sub_set_append s.view ["Posts"] [k] _
    have hleaf : (PathTree.leaf (.bool true) : Node).Present := ⟨[], by simp [PathTree.leaf]⟩
    rw [postKeys, App.viewChanged, hsub, PathTree.children_set_cons hleaf]
    exact Finset.mem_insert_self _ _
  rcases hc k hkey with hin | ⟨o, ho, -⟩
  · have hold : some k ∈ s.postIds := hin
    exact hk (by simpa using hold)
  · simp [App.viewChanged, h] at ho

section Runs

variable [Platform]

/-! ### The deliveries -/

/-- A delivery puts the key of its event in front of the ids of the feed. -/
theorem Delivered.postIds {s t : App} {i : ℕ} {o : Observer} {snap : DataSnapshot}
    {queue : List DataSnapshot} {post : Post} (h : Delivered s i o snap queue post t)
    (hs : FeedInv s) : t.postIds = some snap.key :: s.postIds := by
  have hold : ∀ r ∈ s.feed.posts, (t.objects r).id = (s.objects r).id := by
    intro r hr
    rw [h.objects, Function.update_of_ne (Nat.ne_of_lt (hs.allocated r (.ofPosts hr)))]
  rw [App.postIds, h.posts, List.map_cons, h.objects, Function.update_self,
    fetchedPost_id h.decoded, ← h.objects]
  exact congrArg _ (List.map_congr_left hold)

/-- A delivery moves a key from the queue to the feed. -/
theorem OnceInv.deliver {s t : App} {i : ℕ} {o : Observer} {snap : DataSnapshot}
    {queue : List DataSnapshot} {post : Post} (h : OnceInv s)
    (hd : Delivered s i o snap queue post t) (ht : FeedInv t) : OnceInv t := by
  have hids : t.postIds = some snap.key :: s.postIds := hd.postIds h.toFeedInv
  have hi : i < s.observers.length := (List.getElem?_eq_some_iff.mp hd.observer).1
  have hsingle := h.single
  obtain ⟨o', hobs⟩ := List.length_eq_one_iff.mp (by omega : s.observers.length = 1)
  obtain rfl : i = 0 := by omega
  obtain rfl : o' = o := by simpa [hobs] using hd.observer
  set rest := queue.map fun snap => some snap.key with hrest
  have hqs : s.queuedIds = some snap.key :: rest := by
    simp [queuedIds, hobs, hd.next, hrest]
  have hqt : t.queuedIds = rest := by
    simp [queuedIds, hd.observers, hobs, hrest]
  have hperm : (t.postIds ++ t.queuedIds).Perm (s.postIds ++ s.queuedIds) := by
    rw [hids, hqs, hqt]
    exact List.perm_middle.symm
  refine ⟨ht, ?_, hperm.nodup_iff.mpr h.nodup, fun id hid => ?_⟩
  · simp [hd.observers, hobs]
  · rw [postKeys, hd.view]
    exact h.known id (hperm.mem_iff.mp hid)

theorem FeedInv.step {s t : App} {a : Action} (hs : FeedInv s) (h : s.step a = some t) :
    FeedInv t := by
  refine ⟨fun o ho => ?_, hs.allocated.step h⟩
  cases step_feed h with
  | subscribes hsub =>
      rw [viewWillAppear_subscribing hs hsub] at ho
      rcases List.mem_append.mp ho with ho | ho
      · exact hs.locations o ho
      · simp [List.mem_singleton.mp ho]
  | viewChanged view =>
      obtain ⟨o', ho', rfl⟩ := List.mem_map.mp ho
      exact hs.locations o' ho'
  | @deliver i o' snap queue post t hd =>
      rw [hd.observers] at ho
      rcases List.mem_or_eq_of_mem_set ho with ho | rfl
      · exact hs.locations o ho
      · exact hs.locations o' (List.mem_of_getElem? hd.observer)
  | kept hsub hview hdeliver hkept => exact hs.locations o (hkept.observers_subset ho)

/-! ### At most once -/

/-- The runs in which posts are only ever added. -/
def growing : Machine App Action := machine.restrict Grows

theorem OnceInv.step {s t : App} {a : Action} (hs : OnceInv s) (hgrow : Grows s a)
    (hg : SubscribesAlone s a) (h : s.step a = some t) : OnceInv t := by
  have ht : FeedInv t := hs.toFeedInv.step h
  cases step_feed h with
  | subscribes hsub =>
      -- nothing is attached, so the new observer is the only one
      have hnone : s.observers = [] := List.eq_nil_iff_forall_not_mem.mpr fun o ho =>
        hg hsub ⟨o, ho, hs.locations o ho⟩
      rw [viewWillAppear_subscribing hs.toFeedInv hsub, hnone] at ht ⊢
      have hqueued : (childSnapshots s.view ["Posts"]).map (fun snap => some snap.key) =
          (s.view.sub ["Posts"]).childKeys.map some := by
        rw [← map_key_childSnapshots, List.map_map]
        rfl
      refine ⟨ht, by simp, ?_, ?_⟩
      · simpa [App.postIds, queuedIds, hqueued] using
          (PathTree.nodup_childKeys _).map (Option.some_injective _)
      · simp [App.postIds, queuedIds, hqueued, postKeys]
  | viewChanged view => exact hs.viewChanged hgrow ht
  | deliver hd => exact hs.deliver hd ht
  | kept hsub hview hdeliver hkept =>
      exact hkept.observers.elim (hs.of_eq ht hkept.postIds · hkept.view)
        (hs.of_detached ht hkept.postIds · hkept.view)

/-- **Feed, at most once.** In every run in which the feed subscribes only while no
observer is attached at `Posts`, no two posts in the feed have the same id. -/
theorem feed_at_most_once (u : Option Uid) (view : Node) {as : List Action} {s : App}
    (hrun : growing.run (launch u view) as = some s)
    (hg : growing.Guarded SubscribesAlone (launch u view) as) : s.postIds.Nodup := by
  have hinv : OnceInv s := hg.run_invariant (I := OnceInv)
    (fun s a t hs ha hst => hs.step (Machine.restrict_step.mp hst).1 ha
      (Machine.restrict_step.mp hst).2)
    (onceInv_launch u view) hrun
  exact (List.nodup_append'.mp hinv.nodup).1

/-! ### At least once -/

/-- A delivery to the covering observer puts the key it takes from the queue in the
feed; a delivery to another one leaves the queue alone. -/
theorem CoveredBy.deliver {s t : App} {i : ℕ} {o o' : Observer} {snap : DataSnapshot}
    {queue : List DataSnapshot} {post : Post} (hs : FeedInv s) (h : s.CoveredBy o')
    (hd : Delivered s i o snap queue post t) : ∃ o, t.CoveredBy o := by
  have hids : t.postIds = some snap.key :: s.postIds := hd.postIds hs
  obtain ⟨hi, hget⟩ := List.getElem?_eq_some_iff.mp hd.observer
  obtain ⟨j, hj, rfl⟩ := List.getElem_of_mem h.1
  by_cases hij : i = j
  · subst hij
    obtain rfl : s.observers[i] = o := hget
    refine ⟨{ s.observers[i] with queue }, ?_, fun k hk => ?_⟩
    · rw [hd.observers]
      exact List.mem_set hi _
    · rw [postKeys, hd.view] at hk
      rw [hids]
      rcases h.2 k hk with hk | hk
      · exact Or.inl (List.mem_cons_of_mem _ hk)
      · rw [hd.next, List.map_cons] at hk
        rcases List.mem_cons.mp hk with rfl | hk
        · exact Or.inl (List.mem_cons_self)
        · exact Or.inr hk
  · refine ⟨s.observers[j], ?_, fun k hk => ?_⟩
    · rw [hd.observers]
      exact List.mem_iff_getElem.mpr ⟨j, by simpa using hj, by simp [hij]⟩
    · rw [postKeys, hd.view] at hk
      rw [hids]
      exact (h.2 k hk).imp_left (List.mem_cons_of_mem _)

theorem CoverInv.step {s t : App} {a : Action} (hs : CoverInv s)
    (hg : SignsInSubscribed s a) (h : s.step a = some t) : CoverInv t := by
  have ht : FeedInv t := hs.toFeedInv.step h
  by_cases ha : a.concernsFeed
  · cases a with
    | viewWillAppear =>
        obtain rfl := Option.some.inj h
        by_cases hsub : s.Subscribes .viewWillAppear
        · -- the new observer is told of every key there is
          rw [viewWillAppear_subscribing hs.toFeedInv hsub] at ht ⊢
          refine ⟨ht, fun _ => Or.inl ⟨⟨["Posts"], childSnapshots s.view ["Posts"]⟩, ?_, ?_⟩⟩
          · exact List.mem_append_right _ (List.mem_singleton_self _)
          · intro k hk
            rw [map_key_childSnapshots]
            exact Or.inr (PathTree.mem_childKeys.mpr hk)
        · obtain ⟨huser, hview, hobs, hposts, hobj, -, hl⟩ := viewWillAppear_otherwise hsub
          exact hs.of_eq ht (by rw [App.postIds, hposts, hobj]; rfl) hobs hview
            (fun h => (hl h).1) huser.trans
    | logOut signOut revoked =>
        obtain rfl := Option.some.inj h
        obtain ⟨hfeed, -⟩ := logOut_frame s signOut revoked
        exact ⟨ht, fun hl => by rw [hfeed] at hl; cases hl⟩
    | sessionLoss revoked =>
        obtain rfl := Option.some.inj h
        obtain ⟨hfeed, hview, hobj, -, huser, hobs⟩ := endSession_frame s revoked
        have hids : (s.endSession revoked).postIds = s.postIds := by
          rw [App.postIds, hfeed, hobj]
          rfl
        rcases hobs with hobs | hobs
        · exact hs.of_eq ht hids hobs hview (fun hl => hfeed ▸ hl) fun _ => huser
        · exact ⟨ht, fun _ => Or.inr ⟨huser, hobs⟩⟩
    | signInReply uid succeeded =>
        obtain ⟨-, h⟩ := Option.ite_none_right_eq_some.mp (step_eq_some.mp h)
        obtain rfl := Except.ok.inj (Option.some.inj h)
        refine ⟨ht, fun hl => ?_⟩
        rcases hs.loaded hl with ⟨o, ho⟩ | ⟨hu, hnone⟩
        · exact Or.inl ⟨o, ho⟩
        · cases succeeded with
          | false => exact Or.inr ⟨hu, hnone⟩
          | true =>
              obtain ⟨o, ho, -⟩ := hg hl
              rw [hnone] at ho
              cases ho
    | userCreated uid =>
        obtain rfl := Option.some.inj h
        refine ⟨ht, fun hl => ?_⟩
        rcases hs.loaded hl with ⟨o, ho⟩ | ⟨-, hnone⟩
        · exact Or.inl ⟨o, ho⟩
        · obtain ⟨o, ho, -⟩ := hg hl
          rw [hnone] at ho
          cases ho
    | viewChanged view =>
        obtain rfl := Option.some.inj h
        refine ⟨ht, fun hl => ?_⟩
        rcases hs.loaded hl with ⟨o, ho⟩ | ⟨hu, hnone⟩
        · exact Or.inl ⟨_, ho.viewChanged hs.toFeedInv view⟩
        · exact Or.inr ⟨hu, by simp [App.viewChanged, hnone]⟩
    | deliver i =>
        obtain ⟨o, snap, queue, post, hd⟩ := step_deliver h
        refine ⟨ht, fun hl => ?_⟩
        rcases hs.loaded (hd.postsLoaded ▸ hl) with ⟨o', ho'⟩ | ⟨-, hnone⟩
        · exact Or.inl (ho'.deliver hs.toFeedInv hd)
        · have := hd.observer
          simp [hnone] at this
    | _ => cases ha
  · have hf := step_sameFeed (Bool.not_eq_true _ ▸ ha) h
    exact hs.of_eq ht hf.postIds hf.observers hf.view (fun hl => hf.postsLoaded ▸ hl)
      hf.currentUser.trans

/-- **Feed, at least once.** In every run in which a sign-in completes only on an
unloaded feed or while an observer is attached at `Posts`, whenever somebody is signed in
and the feed counts as loaded, every key of the view is in the feed or queued for it. A
step that breaks the condition can be followed by a post that is missed. -/
theorem feed_at_least_once (u : Option Uid) (view : Node) :
    machine.ExactGuard (launch u view) SignsInSubscribed fun s =>
      s.currentUser ≠ none → s.feed.postsLoaded = true → s.Covered where
  safe as s hrun hg huser hl := by
    have hinv : CoverInv s := hg.run_invariant (fun s a t hs ha hst => hs.step ha hst)
      (coverInv_launch u view) hrun
    rcases hinv.loaded hl with ⟨o, ho, hcover⟩ | ⟨hnone, -⟩
    · exact fun k hk => (hcover k hk).imp_right fun hq =>
        ⟨o, ho, hinv.locations o ho, hq⟩
    · exact absurd hnone huser
  sharp as s a t hrun hg hst hbreak := by
    have hinv : FeedInv s := Machine.run_invariant (fun s a t hs hst => hs.step hst)
      (feedInv_launch u view) hrun
    have hmissed : ∀ t : App, t.observers = s.observers → t.currentUser ≠ none →
        t.feed.postsLoaded = s.feed.postsLoaded →
        ¬ (s.feed.postsLoaded = true → s.Subscribed) →
        ∃ bs u, machine.run t bs = some u ∧
          ¬ (u.currentUser ≠ none → u.feed.postsLoaded = true → u.Covered) := by
      intro t hobs huser hloaded hbreak
      obtain ⟨hl, hunsub⟩ := Classical.not_imp.mp hbreak
      have hnone : s.observers = [] := List.eq_nil_iff_forall_not_mem.mpr fun o ho =>
        hunsub ⟨o, ho, hinv.locations o ho⟩
      obtain ⟨view, hview⟩ := not_covered_of_unsubscribed (hobs.trans hnone)
      exact ⟨[.viewChanged view], _, rfl, fun h => hview (h huser (hloaded.trans hl))⟩
    dsimp only [SignsInSubscribed] at hbreak
    split at hbreak
    · obtain ⟨-, hst⟩ := Option.ite_none_right_eq_some.mp (step_eq_some.mp hst)
      obtain rfl := Except.ok.inj (Option.some.inj hst)
      exact hmissed _ rfl (Option.some_ne_none _) rfl hbreak
    · obtain rfl := Option.some.inj hst
      exact hmissed _ rfl (Option.some_ne_none _) rfl hbreak
    · exact absurd trivial hbreak

end Runs

/-! ### Where they fail -/

/-- A post as `newPost` writes it, with its download URL on the reference platform. -/
def partyPost : Write :=
  .newPost "-L0" ⟨"Party", "/%P", "ann", "at nine", "Feb 21, 9:00 PM"⟩

/-- A later post than Ann's party. -/
def picnicPost : Write :=
  .newPost "-L1" ⟨"Picnic", "/%Q", "bob", "at noon", "Feb 22, 12:00 PM"⟩

/-- Ann signs out, which detaches her observer, and in again before the second post comes. -/
theorem feed_at_most_once_second_login :
    ∃ s, (@growing Platform.reference).run (launch none .empty)
      [.viewWillAppear, .tappedLogin "ann", .signInReply "ann" true, .viewWillAppear,
        .viewChanged (applyWrites .empty [partyPost]), .deliver 0, .logOut true true,
        .viewWillAppear, .tappedLogin "ann", .signInReply "ann" true, .viewWillAppear,
        .deliver 0, .viewChanged (applyWrites .empty [partyPost, picnicPost]), .deliver 0] =
        some s ∧
      s.postIds = [some "-L1", some "-L0"] ∧ s.postIds.Nodup := by
  have hrun : ((@growing Platform.reference).run (launch none .empty)
      [.viewWillAppear, .tappedLogin "ann", .signInReply "ann" true, .viewWillAppear,
        .viewChanged (applyWrites .empty [partyPost]), .deliver 0, .logOut true true,
        .viewWillAppear, .tappedLogin "ann", .signInReply "ann" true, .viewWillAppear,
        .deliver 0, .viewChanged (applyWrites .empty [partyPost, picnicPost]),
        .deliver 0]).map postIds = some [some "-L1", some "-L0"] := by decide
  obtain ⟨s, hs, hids⟩ := Option.map_eq_some_iff.mp hrun
  exact ⟨s, hs, hids, @feed_at_most_once Platform.reference none .empty _ s hs (by decide)⟩

/-- After signing out and in again the feed has two observers, and a new post is put in
it twice. -/
theorem feed_shows_post_twice :
    ∃ as s, (@growing Platform.reference).run (launch (some "ann") .empty) as = some s ∧
      ¬ s.postIds.Nodup := by
  have hrun : ((@growing Platform.reference).run (launch (some "ann") .empty)
      [.viewWillAppear, .logOut true false, .tappedLogin "ann", .signInReply "ann" true,
        .viewWillAppear, .viewChanged (applyWrites .empty [partyPost]), .deliver 0,
        .deliver 1]).map postIds = some [some "-L0", some "-L0"] := by decide
  obtain ⟨s, hs, hids⟩ := Option.map_eq_some_iff.mp hrun
  exact ⟨_, s, hs, by simp [hids]⟩

/-- The session is lost, and its observer with it, after the first of two sign-in
requests; the reply to the second one signs in on a feed that counts as loaded. -/
theorem feed_misses_post :
    ∃ as s, (@machine Platform.reference).run (launch none .empty) as = some s ∧
      s.currentUser ≠ none ∧ s.feed.postsLoaded = true ∧ ¬ s.Covered := by
  have hrun : ((@machine Platform.reference).run (launch none .empty)
      [.viewWillAppear, .tappedLogin "ann", .tappedLogin "ann", .signInReply "ann" true,
        .viewWillAppear, .sessionLoss true, .signInReply "ann" true,
        .viewChanged (applyWrites .empty [partyPost])]).map (fun s =>
          (s.currentUser, s.feed.postsLoaded, s.postIds, s.observers.length,
            decide ("-L0" ∈ s.postKeys))) =
      some (some "ann", true, [], 0, true) := by decide
  obtain ⟨s, hs, hfacts⟩ := Option.map_eq_some_iff.mp hrun
  simp only [Prod.mk.injEq, List.length_eq_zero_iff, decide_eq_true_eq] at hfacts
  obtain ⟨huser, hl, hids, hobs, hkey⟩ := hfacts
  refine ⟨_, s, hs, by simp [huser], hl, fun hc => ?_⟩
  rcases hc "-L0" hkey with hin | ⟨o, ho, -⟩
  · rw [hids] at hin
    cases hin
  · rw [hobs] at ho
    cases ho

end App

end MDBSocials
