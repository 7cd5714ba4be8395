import MDBSocials.FeedSubscription

/-!
# How Often the Feed Shows a Post

Every subscription of the feed attaches one more observer, and the one before stays. So from
the second on a new post reaches the feed more than once. This module says exactly how often,
for every run in which posts are only ever added.

## Main results

* `CountInv.step`: the attached observers are as many as the subscriptions since the server
  last detached any.
* `copies_shown`: a post that arrives after a subscription is shown or queued once for each
  of them, and one that was there once more than it was queued before.
-/

namespace MDBSocials

open scoped List

namespace App

/-- The server detaches the observers with the session. -/
def Detaches (s : App) : Action → Prop
  | .logOut true true | .sessionLoss true => s.currentUser ≠ none
  | _ => False

instance (s : App) (a : Action) : Decidable (s.Detaches a) := by
  rcases a
  case logOut signOut revoked =>
      rcases signOut <;> rcases revoked <;> dsimp only [Detaches] <;> infer_instance
  case sessionLoss revoked =>
      rcases revoked <;> dsimp only [Detaches] <;> infer_instance
  all_goals
    dsimp only [Detaches]
    infer_instance

/-! ### Events of a change -/

/-- A change of the view queues a new key once for each observer. -/
theorem count_raise {old new : Node} {os : List Observer}
    (hos : ∀ o ∈ os, o.location = ["Posts"]) (k : Key) :
    ((os.map (Observer.raise old new)).flatMap fun o =>
        o.queue.map fun snap => some snap.key).count (some k) =
      (os.flatMap fun o => o.queue.map fun snap => some snap.key).count (some k) +
        if k ∈ (new.sub ["Posts"]).children ∧ k ∉ (old.sub ["Posts"]).children then os.length
        else 0 := by
  induction os with
  | nil => simp
  | cons o os ih =>
      have hkeys : ((o.raise old new).queue.map fun snap => some snap.key) =
          (o.queue.map fun snap => some snap.key) ++
            ((new.sub ["Posts"]).childKeys.filter fun k =>
              k ∉ (old.sub ["Posts"]).children).map some := by
        have hraise := congrArg (List.map some) (map_key_raise old new o)
        rw [hos o List.mem_cons_self] at hraise
        simpa [Function.comp_def] using hraise
      have hadded : (((new.sub ["Posts"]).childKeys.filter fun k =>
          k ∉ (old.sub ["Posts"]).children).map some).count (some k) =
          if k ∈ (new.sub ["Posts"]).children ∧ k ∉ (old.sub ["Posts"]).children then 1 else 0 := by
        rw [List.count_map_of_injective _ _ (Option.some_injective _),
          ((PathTree.nodup_childKeys _).filter _).count]
        simp
      rw [List.map_cons, List.flatMap_cons, List.flatMap_cons, List.count_append,
        List.count_append, hkeys, List.count_append, hadded,
        ih fun o ho => hos o (List.mem_cons_of_mem _ ho), List.length_cons]
      split <;> omega

section Runs

variable [Platform]

/-- A delivery takes one id from the queues. -/
theorem Delivered.queuedIds_perm {s t : App} {i : ℕ} {o : Observer} {snap : DataSnapshot}
    {queue : List DataSnapshot} {post : Post} (h : Delivered s i o snap queue post t) :
    s.queuedIds ~ some snap.key :: t.queuedIds := by
  obtain ⟨hi, hget⟩ := List.getElem?_eq_some_iff.mp h.observer
  obtain ⟨os, os', hobs, -, hset⟩ := @List.exists_of_set _ _ { o with queue } _ hi
  rw [hget] at hobs
  rw [queuedIds, queuedIds, h.observers, hset, hobs]
  simp [List.flatMap_append, List.flatMap_cons, h.next]

/-- A delivery moves an id from the queues to the feed. -/
theorem Delivered.ids_perm {s t : App} {i : ℕ} {o : Observer} {snap : DataSnapshot}
    {queue : List DataSnapshot} {post : Post} (h : Delivered s i o snap queue post t)
    (hs : FeedInv s) : (t.postIds ++ t.queuedIds) ~ (s.postIds ++ s.queuedIds) := by
  rw [h.postIds hs, List.cons_append]
  exact List.perm_middle.symm.trans (h.queuedIds_perm.symm.append_left _)

/-- What happens to the observers in an action that neither subscribes nor is an event. -/
theorem step_observers {s t : App} {a : Action} (h : s.step a = some t) (hsub : ¬ s.Subscribes a)
    (hview : ∀ view, a ≠ .viewChanged view) (hdeliver : ∀ i, a ≠ .deliver i) :
    t.observers = if s.Detaches a then [] else s.observers := by
  have hend : ∀ (s : App) revoked, (s.endSession revoked).observers =
      if revoked = true ∧ s.currentUser ≠ none then [] else s.observers := by
    intro s revoked
    rw [endSession]
    by_cases huser : s.currentUser = none <;> cases revoked <;> simp [huser]
  by_cases ha : a.concernsFeed
  · cases a with
    | viewWillAppear =>
        obtain rfl := Option.some.inj h
        exact (viewWillAppear_otherwise hsub).2.2.1
    | logOut signOut revoked =>
        obtain rfl := Option.some.inj h
        cases signOut with
        | false => simp [Detaches, logOut]
        | true =>
            rw [logOut, if_pos rfl, hend]
            cases revoked <;> simp [Detaches]
    | sessionLoss revoked =>
        obtain rfl := Option.some.inj h
        rw [hend]
        cases revoked <;> simp [Detaches]
    | signInReply uid succeeded =>
        obtain ⟨-, h⟩ := Option.ite_none_right_eq_some.mp (step_eq_some.mp h)
        obtain rfl := Except.ok.inj (Option.some.inj h)
        rfl
    | userCreated uid =>
        obtain rfl := Option.some.inj h
        rfl
    | viewChanged view => exact absurd rfl (hview view)
    | deliver i => exact absurd rfl (hdeliver i)
    | _ => cases ha
  · rw [(step_sameFeed (Bool.not_eq_true _ ▸ ha) h).observers]
    cases a with
    | logOut | sessionLoss => exact absurd rfl ha
    | _ => rfl

/-! ### The number of observers -/

/-- How often the feed has subscribed since the server last detached its observers. -/
def noteSubscription (s : App) (a : Action) (_ : App) (n : ℕ) : ℕ :=
  if s.Subscribes a then n + 1 else if s.Detaches a then 0 else n

/-- Everything shown or queued is a post of the view. -/
def Known (s : App) : Prop := ∀ id ∈ s.postIds ++ s.queuedIds, ∃ k ∈ s.postKeys, id = some k

theorem Known.step {s t : App} {a : Action} (hs : FeedInv s) (h : s.Known) (hgrow : s.Grows a)
    (hst : s.step a = some t) : t.Known := by
  cases step_feed hst with
  | subscribes hsub =>
      intro id hid
      rw [viewWillAppear_subscribing hs hsub] at hid ⊢
      simp only [postIds, queuedIds, List.map_nil, List.nil_append, List.flatMap_append,
        List.mem_append] at hid
      rcases hid with hid | hid
      · exact h id (List.mem_append_right _ hid)
      · have hkey : ∃ snap ∈ childSnapshots s.view ["Posts"], some snap.key = id := by
          simpa using hid
        obtain ⟨snap, hsnap, rfl⟩ := hkey
        exact ⟨snap.key, (mem_childSnapshots.mp hsnap).1, rfl⟩
  | viewChanged view =>
      intro id hid
      rcases List.mem_append.mp hid with hid | hid
      · obtain ⟨k, hk, rfl⟩ := h id (List.mem_append_left _ hid)
        exact ⟨k, hgrow hk, rfl⟩
      · obtain ⟨o', ho', hid⟩ := List.mem_flatMap.mp hid
        obtain ⟨o, ho, rfl⟩ := List.mem_map.mp ho'
        obtain ⟨snap, hsnap, rfl⟩ := List.mem_map.mp hid
        rcases List.mem_append.mp hsnap with hsnap | hsnap
        · obtain ⟨k, hk, heq⟩ := h (some snap.key) (List.mem_append_right _
            (List.mem_flatMap.mpr ⟨o, ho, List.mem_map_of_mem hsnap⟩))
          exact ⟨k, hgrow hk, heq⟩
        · rw [hs.locations o ho] at hsnap
          exact ⟨snap.key, (mem_childSnapshots.mp (List.mem_of_mem_filter hsnap)).1, rfl⟩
  | deliver hd =>
      intro id hid
      rw [postKeys, hd.view]
      exact h id ((hd.ids_perm hs).mem_iff.mp hid)
  | kept hsub hview hdeliver hkept =>
      intro id hid
      rw [postKeys, hkept.view]
      refine h id ?_
      rw [hkept.postIds] at hid
      rcases List.mem_append.mp hid with hid | hid
      · exact List.mem_append_left _ hid
      · obtain ⟨o, ho, hid⟩ := List.mem_flatMap.mp hid
        exact List.mem_append_right _
          (List.mem_flatMap.mpr ⟨o, hkept.observers_subset ho, hid⟩)

/-- There is one observer for each subscription. -/
structure CountInv (s : App) (n : ℕ) : Prop extends FeedInv s where
  known : s.Known
  count : s.observers.length = n

/-- **Subscriptions and observers** are counted alike by every step. -/
theorem CountInv.step {s t : App} {n : ℕ} {a : Action} (hs : CountInv s n) (hgrow : s.Grows a)
    (hst : s.step a = some t) : CountInv t (noteSubscription s a t n) := by
  refine ⟨hs.toFeedInv.step hst, hs.known.step hs.toFeedInv hgrow hst, ?_⟩
  cases step_feed hst with
  | subscribes hsub =>
      rw [viewWillAppear_subscribing hs.toFeedInv hsub]
      simp [noteSubscription, hsub, hs.count]
  | viewChanged view => simp [App.viewChanged, noteSubscription, Subscribes, Detaches, hs.count]
  | deliver hd => simp [hd.observers, noteSubscription, Subscribes, Detaches, hs.count]
  | kept hsub hview hdeliver hkept =>
      rw [step_observers hst hsub hview hdeliver, noteSubscription, if_neg hsub]
      split <;> simp [hs.count]

theorem countInv_of_run {u : Option Uid} {view : Node} {as : List Action} {s : App} {n : ℕ}
    (hrun : (growing.withHistory noteSubscription).run (launch u view, 0) as = some (s, n)) :
    CountInv s n := by
  refine Machine.run_invariant (M := growing.withHistory noteSubscription)
    (I := fun x => CountInv x.1 x.2) ?_
    ⟨feedInv_launch u view, fun id hid => by simp [launch, postIds, queuedIds] at hid, rfl⟩ hrun
  rintro ⟨s, n⟩ a ⟨t, m⟩ hs hst
  obtain ⟨hstep, rfl⟩ := Machine.withHistory_step.mp hst
  obtain ⟨hgrow, hstep⟩ := Machine.restrict_step.mp hstep
  exact hs.step hgrow hstep

/-! ### The copies of a post -/

/-- The feed neither subscribes nor loses its observers. -/
def Undisturbed (s : App) (a : Action) : Prop := ¬ s.Subscribes a ∧ ¬ s.Detaches a

instance (s : App) (a : Action) : Decidable (s.Undisturbed a) :=
  inferInstanceAs (Decidable (_ ∧ _))

/-- How often each post is shown or queued, since a subscription: `q` for those that were
there, and `n` for the others. -/
structure CopiesInv (ks : Finset Key) (q : Key → ℕ) (n : ℕ) (s : App) : Prop
    extends FeedInv s where
  observers : s.observers.length = n
  before : ks ⊆ s.postKeys
  known : s.Known
  copies : ∀ k ∈ s.postKeys, (s.postIds ++ s.queuedIds).count (some k) = if k ∈ ks then q k else n

theorem CopiesInv.step {ks : Finset Key} {q : Key → ℕ} {n : ℕ} {s t : App} {a : Action}
    (hs : CopiesInv ks q n s) (hgrow : s.Grows a) (hg : s.Undisturbed a)
    (hst : s.step a = some t) : CopiesInv ks q n t := by
  have ht : FeedInv t := hs.toFeedInv.step hst
  have hknown : t.Known := hs.known.step hs.toFeedInv hgrow hst
  cases step_feed hst with
  | subscribes hsub => exact absurd hsub hg.1
  | viewChanged view =>
      refine ⟨ht, by simp [App.viewChanged, hs.observers], hs.before.trans hgrow, hknown, ?_⟩
      intro k hk
      have hcount := @count_raise s.view view _ hs.locations k
      have hids : ((s.viewChanged view).postIds ++ (s.viewChanged view).queuedIds).count (some k) =
          (s.postIds ++ s.queuedIds).count (some k) +
            if k ∈ (view.sub ["Posts"]).children ∧ k ∉ (s.view.sub ["Posts"]).children then
              s.observers.length
            else 0 := by
        rw [List.count_append, List.count_append, add_assoc]
        exact congrArg _ hcount
      rw [hids]
      by_cases hold : k ∈ s.postKeys
      · have hnot : ¬ (k ∈ (view.sub ["Posts"]).children ∧ k ∉ (s.view.sub ["Posts"]).children) :=
          fun hnew => hnew.2 hold
        rw [hs.copies k hold, if_neg hnot, add_zero]
      · -- a new key was nowhere before
        have hzero : (s.postIds ++ s.queuedIds).count (some k) = 0 := by
          refine List.count_eq_zero.mpr fun hmem => ?_
          obtain ⟨k', hk', heq⟩ := hs.known _ hmem
          exact hold (Option.some.inj heq ▸ hk')
        rw [hzero, if_pos ⟨hk, hold⟩, if_neg fun hin => hold (hs.before hin), zero_add,
          hs.observers]
  | deliver hd =>
      refine ⟨ht, by simp [hd.observers, hs.observers], ?_, hknown, fun k hk => ?_⟩
      · rw [postKeys, hd.view]
        exact hs.before
      · rw [postKeys, hd.view] at hk
        rw [(hd.ids_perm hs.toFeedInv).count_eq]
        exact hs.copies k hk
  | kept hsub hview hdeliver hkept =>
      have hobs : t.observers = s.observers := by
        rw [step_observers hst hsub hview hdeliver, if_neg hg.2]
      refine ⟨ht, hobs ▸ hs.observers, ?_, hknown, fun k hk => ?_⟩
      · rw [postKeys, hkept.view]
        exact hs.before
      · rw [postKeys, hkept.view] at hk
        rw [hkept.postIds, queuedIds, hobs]
        exact hs.copies k hk

/-- **How often a post is shown.** In every run in which posts are only ever added, once the
feed has subscribed and until it does so again or loses its observers, everything it shows or
has queued is a post of its view. A post that has come since is shown or queued once for each
subscription, this one included, that the server has not ended; and one that was there, once
more than it was still queued for the older ones. -/
theorem copies_shown (u : Option Uid) (view : Node) {as bs : List Action} {s t : App} {n : ℕ}
    (hrun : (growing.withHistory noteSubscription).run (launch u view, 0) as = some (s, n))
    (hsub : s.Subscribes .viewWillAppear) (hrun' : growing.run s.viewWillAppear bs = some t)
    (hg : growing.Guarded Undisturbed s.viewWillAppear bs) :
    t.Known ∧ ∀ k ∈ t.postKeys, (t.postIds ++ t.queuedIds).count (some k) =
      if k ∈ s.postKeys then s.queuedIds.count (some k) + 1 else n + 1 := by
  have hs := countInv_of_run hrun
  have hstep : s.step .viewWillAppear = some s.viewWillAppear := rfl
  have hstart : CopiesInv s.postKeys (fun k => s.queuedIds.count (some k) + 1) (n + 1)
      s.viewWillAppear := by
    refine ⟨hs.toFeedInv.step hstep, ?_, ?_,
      hs.known.step (a := .viewWillAppear) hs.toFeedInv trivial hstep, ?_⟩
    all_goals rw [viewWillAppear_subscribing hs.toFeedInv hsub]
    · simp [hs.count]
    · exact Finset.Subset.refl _
    · -- the new observer is told of every key, and the feed is empty
      intro k hk
      have hnew : ((childSnapshots s.view ["Posts"]).map fun snap => some snap.key).count
          (some k) = 1 := by
        have hkeys : ((childSnapshots s.view ["Posts"]).map fun snap => some snap.key) =
            (s.view.sub ["Posts"]).childKeys.map some := by
          rw [← map_key_childSnapshots, List.map_map]
          rfl
        rw [hkeys, List.count_map_of_injective _ _ (Option.some_injective _)]
        exact List.count_eq_one_of_mem (PathTree.nodup_childKeys _) (PathTree.mem_childKeys.mpr hk)
      have hbefore : k ∈ s.postKeys := hk
      simp [postIds, queuedIds, hnew, if_pos hbefore]
  have ht : CopiesInv s.postKeys (fun k => s.queuedIds.count (some k) + 1) (n + 1) t :=
    hg.run_invariant (fun _ _ _ h ha hst => by
      obtain ⟨hgrow, hst⟩ := Machine.restrict_step.mp hst
      exact h.step hgrow ha hst) hstart hrun'
  exact ⟨ht.known, ht.copies⟩

end Runs

/-! ### Signing in again -/

theorem copies_shown_twice : ∃ s t,
    ((@growing Platform.reference).withHistory noteSubscription).run
        (launch (some "ann") .empty, 0) [.viewWillAppear, .logOut true false, .tappedLogin "ann",
          .signInReply "ann" true] = some (s, 1) ∧
    (@growing Platform.reference).run s.viewWillAppear
        [.viewChanged (applyWrites .empty [partyPost]), .deliver 0] = some t ∧
    (t.postIds ++ t.queuedIds).count (some "-L0") = 2 := by
  have hrun : (((@growing Platform.reference).withHistory noteSubscription).run
      (launch (some "ann") .empty, 0) [.viewWillAppear, .logOut true false, .tappedLogin "ann",
        .signInReply "ann" true]).bind (fun x =>
      ((@growing Platform.reference).run x.1.viewWillAppear
        [.viewChanged (applyWrites .empty [partyPost]), .deliver 0]).map fun t =>
      (x.2, decide (x.1.Subscribes .viewWillAppear), decide ("-L0" ∈ x.1.postKeys),
        decide ("-L0" ∈ t.postKeys), decide ((@growing Platform.reference).Guarded Undisturbed
          x.1.viewWillAppear [.viewChanged (applyWrites .empty [partyPost]), .deliver 0]))) =
      some (1, true, false, true, true) := by decide
  obtain ⟨⟨s, n⟩, hs, hrun⟩ := Option.bind_eq_some_iff.mp hrun
  obtain ⟨t, ht, hfacts⟩ := Option.map_eq_some_iff.mp hrun
  simp only [Prod.mk.injEq, decide_eq_true_eq, decide_eq_false_iff_not] at hfacts
  obtain ⟨rfl, hsub, hbefore, hkey, hg⟩ := hfacts
  have hcopies := (@copies_shown Platform.reference _ _ _ _ _ _ _ hs hsub ht hg).2 "-L0" hkey
  rw [if_neg hbefore] at hcopies
  exact ⟨s, t, hs, ht, hcopies⟩

end App

end MDBSocials
