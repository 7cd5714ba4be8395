import MDBSocials.FeedTable

/-!
# The Order of the Feed

The feed never sorts its posts: the block of `viewWillAppear` puts each new object in
front. What one subscription has delivered therefore stands in the reverse order of its
arrival, and the keys of posts ascend with the time at which they were made, so that the
newest post is first as long as posts arrive in the order in which they were made.

A `Subscription` is a history variable, which notes what happens to the observer that one
call of `viewWillAppear` attached.

## Main results

* `Subscription.Inv.step`: what one step does to a subscription.
* `newest_first`: the posts of a subscription descend by their ids when they arrived in
  ascending order, and only then while no later subscription has emptied the feed.
* `late_post_first`: a post made earlier on a device that was offline stands in front.
-/

namespace MDBSocials

namespace App

/-- The keys of the posts that a change of the view adds, in the order of their events. -/
def newKeys (old new : Node) : List Key :=
  (new.sub ["Posts"]).childKeys.filter fun k => k ∉ (old.sub ["Posts"]).children

/-- What has become of a subscription: whether its observer is still attached, whether no
later subscription has emptied the feed, the keys of the events raised for it, and the
objects that its deliveries have made. -/
structure Subscription where
  attached : Bool := true
  latest : Bool := true
  arrived : List Key
  delivered : List PostRef := []

/-- The subscription that `viewWillAppear` makes: the posts that are there arrive in the
order of their keys. -/
def Subscription.initial (view : Node) : Subscription where
  arrived := (view.sub ["Posts"]).childKeys

/-- What a step does to the subscription of the `i`-th observer. -/
def Subscription.note (i : ℕ) (s : App) (a : Action) (t : App) (sub : Subscription) :
    Subscription :=
  match a with
  | .viewChanged view =>
      if sub.attached then { sub with arrived := sub.arrived ++ newKeys s.view view } else sub
  | .deliver j =>
      if sub.attached ∧ j = i then { sub with delivered := sub.delivered ++ [s.nextRef] }
      else sub
  | a =>
      { sub with
        attached := sub.attached && i < t.observers.length
        latest := sub.latest && !decide (s.Subscribes a) }

/-- The posts in the feed that a subscription has delivered, first row first. -/
def postsOf (s : App) (sub : Subscription) : List PostRef :=
  s.feed.posts.filter (· ∈ sub.delivered)

/-- Their ids. -/
def postIdsOf (s : App) (sub : Subscription) : List (Option Key) :=
  (s.postsOf sub).map fun r => (s.objects r).id

/-- The ids are keys, each greater than the next. -/
def Descending (ids : List (Option Key)) : Prop :=
  ∃ keys : List Key, ids = keys.map some ∧ keys.Pairwise (· > ·)

namespace Subscription

/-- The keys that a subscription has delivered, in the order of their arrival. -/
def deliveredKeys (sub : Subscription) : List Key := sub.arrived.take sub.delivered.length

/-- What a subscription has delivered are the first of the keys that have arrived, and its
observer's queue holds the others; the feed shows the last of the objects it made, the last
one first. -/
structure Inv (i : ℕ) (s : App) (sub : Subscription) : Prop extends FeedInv s where
  ids : (sub.delivered.map fun r => (s.objects r).id) = sub.deliveredKeys.map some
  made : ∀ r ∈ sub.delivered, r < s.nextRef
  queue : sub.attached = true → ∃ o, s.observers[i]? = some o ∧
    o.queue.map DataSnapshot.key = sub.arrived.drop sub.delivered.length
  shown : (s.postsOf sub).reverse <:+ sub.delivered
  all : sub.latest = true → (s.postsOf sub).reverse = sub.delivered

variable {i : ℕ} {s t : App} {sub : Subscription}

/-- What leaves the posts and the objects alone, and the observers unless it detaches them
all. -/
theorem Inv.of_eq (h : Inv i s sub) (ht : FeedInv t) (hposts : t.feed.posts = s.feed.posts)
    (hids : ∀ r, (t.objects r).id = (s.objects r).id) (hnext : t.nextRef = s.nextRef)
    (hobs : t.observers = s.observers ∨ t.observers = []) (latest : Bool)
    (hlatest : latest = true → sub.latest = true) :
    Inv i t { sub with attached := sub.attached && i < t.observers.length, latest } where
  toFeedInv := ht
  ids := (List.map_congr_left fun r _ => hids r).trans h.ids
  made := hnext ▸ h.made
  queue hattached := by
    obtain ⟨hattached, hlt⟩ := Bool.and_eq_true_iff.mp hattached
    rcases hobs with hobs | hobs
    · exact hobs ▸ h.queue hattached
    · simp [hobs] at hlt
  shown := by simpa only [postsOf, hposts] using h.shown
  all hl := by simpa only [postsOf, hposts] using h.all (hlatest hl)

/-- A later subscription empties the feed, and its observer comes after the others. -/
theorem Inv.subscribe (h : Inv i s sub) (ht : FeedInv s.viewWillAppear)
    (hsub : s.Subscribes .viewWillAppear) :
    Inv i s.viewWillAppear
      { sub with
        attached := sub.attached && i < s.viewWillAppear.observers.length
        latest := false } := by
  rw [viewWillAppear_subscribing h.toFeedInv hsub] at ht ⊢
  refine ⟨ht, h.ids, h.made, fun hattached => ?_, List.nil_suffix, nofun⟩
  obtain ⟨o, ho, hqueue⟩ := h.queue (Bool.and_eq_true_iff.mp hattached).1
  exact ⟨o, (List.getElem?_append_left (List.getElem?_eq_some_iff.mp ho).1).trans ho, hqueue⟩

/-- What the view adds arrives after what has arrived. -/
theorem Inv.viewChanged (h : Inv i s sub) {view : Node} (ht : FeedInv (s.viewChanged view))
    (hattached : sub.attached = true) :
    Inv i (s.viewChanged view) { sub with arrived := sub.arrived ++ newKeys s.view view } := by
  obtain ⟨o, ho, hqueue⟩ := h.queue hattached
  have hlength : sub.delivered.length ≤ sub.arrived.length := by
    have hids := congrArg List.length h.ids
    simp only [List.length_map, deliveredKeys, List.length_take] at hids
    omega
  have hloc : o.location = ["Posts"] := h.locations o (List.mem_of_getElem? ho)
  refine ⟨ht, ?_, h.made, fun _ => ⟨o.raise s.view view, ?_, ?_⟩, h.shown, h.all⟩
  · rw [deliveredKeys, List.take_append_of_le_length hlength]
    exact h.ids
  · simp [App.viewChanged, ho]
  · rw [map_key_raise, hqueue, hloc, List.drop_append_of_le_length hlength]
    rfl

variable [Platform]

theorem inv_initial {s : App} (hs : FeedInv s) (h : s.Subscribes .viewWillAppear) :
    Inv s.observers.length s.viewWillAppear (initial s.view) := by
  have hfeed : FeedInv s.viewWillAppear := FeedInv.step (a := .viewWillAppear) hs rfl
  rw [viewWillAppear_subscribing hs h] at hfeed ⊢
  refine ⟨hfeed, rfl, nofun, fun _ => ⟨_, List.getElem?_concat_length, ?_⟩, ?_, fun _ => rfl⟩
  · exact map_key_childSnapshots _ _
  · exact List.suffix_rfl

/-- A delivery of another subscription's event. -/
theorem Inv.deliver_other (h : Inv i s sub) (ht : FeedInv t) {j : ℕ} {o : Observer}
    {snap : DataSnapshot} {queue : List DataSnapshot} {post : Post}
    (hd : Delivered s j o snap queue post t) (hij : sub.attached = true → j ≠ i) :
    Inv i t sub := by
  have hnew : s.nextRef ∉ sub.delivered := fun hmem => Nat.lt_irrefl _ (h.made _ hmem)
  have hposts : t.postsOf sub = s.postsOf sub := by simp [postsOf, hd.posts, hnew]
  refine ⟨ht, ?_, ?_, fun hattached => ?_, hposts ▸ h.shown, fun hl => hposts ▸ h.all hl⟩
  · rw [← h.ids, hd.objects]
    refine List.map_congr_left fun r hr => ?_
    rw [Function.update_of_ne (Nat.ne_of_lt (h.made r hr))]
  · rw [hd.nextRef]
    exact fun r hr => Nat.lt_succ_of_lt (h.made r hr)
  · rw [hd.observers, List.getElem?_set_ne (hij hattached)]
    exact h.queue hattached

/-- A delivery of the subscription's own next event. -/
theorem Inv.deliver (h : Inv i s sub) (ht : FeedInv t) {o : Observer} {snap : DataSnapshot}
    {queue : List DataSnapshot} {post : Post} (hd : Delivered s i o snap queue post t)
    (hattached : sub.attached = true) :
    Inv i t { sub with delivered := sub.delivered ++ [s.nextRef] } := by
  obtain ⟨o', ho', hqueue⟩ := h.queue hattached
  obtain rfl := Option.some.inj (hd.observer.symm.trans ho')
  rw [hd.next, List.map_cons] at hqueue
  have hnew : s.nextRef ∉ s.feed.posts := fun hmem =>
    Nat.lt_irrefl _ (h.allocated _ (.ofPosts hmem))
  have hposts : (t.postsOf { sub with delivered := sub.delivered ++ [s.nextRef] }).reverse =
      (s.postsOf sub).reverse ++ [s.nextRef] := by
    have hold : s.feed.posts.filter (fun r => r ∈ sub.delivered ++ [s.nextRef]) =
        s.postsOf sub := by
      refine List.filter_congr fun r hr => ?_
      have hne : r ≠ s.nextRef := fun hrr => hnew (hrr ▸ hr)
      simp [hne]
    rw [postsOf, hd.posts, List.filter_cons_of_pos (by simp), List.reverse_cons, hold]
  have hkey : sub.arrived[sub.delivered.length]? = some snap.key := by
    rw [← Nat.add_zero sub.delivered.length, ← List.getElem?_drop, ← hqueue]
    rfl
  have hlt : i < s.observers.length := (List.getElem?_eq_some_iff.mp ho').1
  refine ⟨ht, ?_, ?_, fun _ => ⟨{ o with queue }, ?_, ?_⟩, ?_, fun hl => ?_⟩
  · have hold : (sub.delivered.map fun r => (t.objects r).id) =
        sub.deliveredKeys.map some := by
      rw [← h.ids, hd.objects]
      refine List.map_congr_left fun r hr => ?_
      rw [Function.update_of_ne (Nat.ne_of_lt (h.made r hr))]
    have hpost : (t.objects s.nextRef).id = some snap.key := by
      rw [hd.objects, Function.update_self]
      exact fetchedPost_id hd.decoded
    simp [deliveredKeys, hold, hpost, List.take_add_one, hkey]
  · rw [hd.nextRef]
    exact List.forall_mem_append.mpr ⟨fun r hr => Nat.lt_succ_of_lt (h.made r hr),
      List.forall_mem_singleton.mpr (Nat.lt_succ_self _)⟩
  · rw [hd.observers, List.getElem?_set_self hlt]
  · rw [List.length_append, List.length_singleton, ← List.tail_drop, ← hqueue, List.tail_cons]
  · rw [hposts]
    obtain ⟨before, hbefore⟩ := h.shown
    exact ⟨before, by rw [← List.append_assoc, hbefore]⟩
  · rw [hposts, h.all hl]

/-- **One step** of the application, and what becomes of a subscription. -/
theorem Inv.step {a : Action} (h : Inv i s sub) (hst : s.step a = some t) :
    Inv i t (sub.note i s a t) := by
  have ht : FeedInv t := h.toFeedInv.step hst
  cases step_feed hst with
  | subscribes hsub => simpa [note, hsub] using h.subscribe ht hsub
  | viewChanged view =>
      rw [note]
      split
      · rename_i hattached
        exact h.viewChanged ht hattached
      · rename_i hdetached
        exact ⟨ht, h.ids, h.made, fun hattached => absurd hattached hdetached, h.shown, h.all⟩
  | @deliver j o snap queue post t hd =>
      rw [note]
      split
      · rename_i hown
        obtain ⟨hattached, rfl⟩ := hown
        exact h.deliver ht hd hattached
      · rename_i hother
        exact h.deliver_other ht hd fun hattached hij => hother ⟨hattached, hij⟩
  | kept hsub hview hdeliver hkept =>
      have hids : ∀ r, (t.objects r).id = (s.objects r).id := fun r =>
        (congrArg Post.id (hkept.records r) :)
      have hnote : Inv i t { sub with
          attached := sub.attached && i < t.observers.length
          latest := sub.latest && !decide (s.Subscribes a) } :=
        h.of_eq ht hkept.posts hids hkept.nextRef hkept.observers _ fun hl =>
          (Bool.and_eq_true_iff.mp hl).1
      cases a with
      | viewChanged view => exact absurd rfl (hview view)
      | deliver j => exact absurd rfl (hdeliver j)
      | _ => exact hnote

omit [Platform] in
/-- What has arrived stays. -/
theorem arrived_note (i : ℕ) (s : App) (a : Action) (t : App) (sub : Subscription) :
    sub.arrived <+: (sub.note i s a t).arrived := by
  cases a with
  | viewChanged view =>
      rw [note]
      split
      · exact List.prefix_append _ _
      · exact List.prefix_rfl
  | deliver j =>
      rw [note]
      split <;> exact List.prefix_rfl
  | _ => exact List.prefix_rfl

omit [Platform] in
/-- The posts of a subscription stand in the reverse order of their arrival. -/
theorem Inv.postIdsOf (h : Inv i s sub) : ∃ keys : List Key, s.postIdsOf sub = keys.map some ∧
    keys.reverse <:+ sub.deliveredKeys ∧
    (sub.latest = true → keys.reverse = sub.deliveredKeys) := by
  obtain ⟨before, hbefore⟩ := h.shown
  have hids : (before.map fun r => (s.objects r).id) ++ (s.postIdsOf sub).reverse =
      sub.deliveredKeys.map some := by
    rw [← h.ids, ← hbefore, List.map_append, App.postIdsOf, List.map_reverse]
  obtain ⟨keys₀, keys, hkeys, hkeys₀, hids'⟩ := List.map_eq_append_iff.mp hids.symm
  refine ⟨keys.reverse, ?_, ?_, fun hl => ?_⟩
  · rw [List.map_reverse, hids', List.reverse_reverse]
  · rw [List.reverse_reverse]
    exact ⟨keys₀, hkeys.symm⟩
  · have hnil : before = [] := by
      have hall := h.all hl
      rw [← hbefore] at hall
      exact List.append_left_eq_self.mp hall.symm
    rw [hnil, List.map_nil, List.map_eq_nil_iff] at hkeys₀
    rw [List.reverse_reverse, hkeys, hkeys₀, List.nil_append]

end Subscription

/-- **Newest first.** After every run from a call of `viewWillAppear` that subscribes, the
posts that the subscription has delivered stand in the feed in the reverse order of their
arrival, and all of them do as long as no later subscription has emptied the feed. They
descend by their ids when they arrived in ascending order, as those do that were there at the
call, and as long as no later subscription has emptied the feed, only then. -/
theorem newest_first [Platform] (u : Option Uid) (view : Node) {as₀ : List Action} {s₀ : App}
    (hrun₀ : machine.run (launch u view) as₀ = some s₀) (hsub : s₀.Subscribes .viewWillAppear)
    {as : List Action} {t : App} (hrun : machine.run s₀.viewWillAppear as = some t) :
    ∃ sub, (machine.withHistory (Subscription.note s₀.observers.length)).run
        (s₀.viewWillAppear, .initial s₀.view) as = some (t, sub) ∧
      ((s₀.view.sub ["Posts"]).childKeys.Pairwise (· < ·) ∧
        (s₀.view.sub ["Posts"]).childKeys <+: sub.arrived) ∧
      (∃ keys : List Key, t.postIdsOf sub = keys.map some ∧
        keys.reverse <:+ sub.deliveredKeys ∧
        (sub.latest = true → keys.reverse = sub.deliveredKeys)) ∧
      (sub.deliveredKeys.Pairwise (· < ·) → Descending (t.postIdsOf sub)) ∧
      (sub.latest = true → Descending (t.postIdsOf sub) →
        sub.deliveredKeys.Pairwise (· < ·)) := by
  have hfeed : FeedInv s₀ :=
    Machine.run_invariant (fun _ _ _ hs hst => hs.step hst) (feedInv_launch u view) hrun₀
  obtain ⟨sub, hhistory⟩ := Machine.exists_history (Subscription.note s₀.observers.length)
    hrun (.initial s₀.view)
  have hinv : Subscription.Inv s₀.observers.length t sub ∧
      (s₀.view.sub ["Posts"]).childKeys <+: sub.arrived := by
    refine Machine.run_invariant
      (I := fun x : App × Subscription => Subscription.Inv s₀.observers.length x.1 x.2 ∧
        (s₀.view.sub ["Posts"]).childKeys <+: x.2.arrived)
      ?_ ⟨Subscription.inv_initial hfeed hsub, List.prefix_rfl⟩ hhistory
    rintro ⟨s, sub⟩ a ⟨t, sub'⟩ ⟨hs, hprefix⟩ hst
    obtain ⟨hstep, rfl⟩ := Machine.withHistory_step.mp hst
    exact ⟨hs.step hstep, hprefix.trans (Subscription.arrived_note ..)⟩
  obtain ⟨keys, hids, hsuffix, hall⟩ := hinv.1.postIdsOf
  refine ⟨sub, hhistory, ⟨(PathTree.sortedLT_childKeys _).pairwise, hinv.2⟩,
    ⟨keys, hids, hsuffix, hall⟩, fun hsorted => ⟨keys, hids, ?_⟩, fun hl hdesc => ?_⟩
  · exact List.pairwise_reverse.mp (hsorted.sublist hsuffix.sublist)
  · obtain ⟨keys', hids', hdesc⟩ := hdesc
    obtain rfl : keys = keys' :=
      List.map_injective_iff.mpr (Option.some_injective _) (hids.symm.trans hids')
    rw [← hall hl]
    exact List.pairwise_reverse.mpr hdesc

/-! ### Before and after a late post -/

theorem newest_first_picnic :
    ∃ t sub, ((@machine Platform.reference).withHistory (Subscription.note 0)).run
        ((launch (some "ann") (applyWrites .empty [partyPost])).viewWillAppear,
          .initial (applyWrites .empty [partyPost]))
        [.deliver 0, .viewChanged (applyWrites .empty [partyPost, picnicPost]), .deliver 0] =
          some (t, sub) ∧
      t.postIdsOf sub = [some "-L1", some "-L0"] ∧ Descending (t.postIdsOf sub) := by
  have hfacts : (((@machine Platform.reference).withHistory (Subscription.note 0)).run
        ((launch (some "ann") (applyWrites .empty [partyPost])).viewWillAppear,
          .initial (applyWrites .empty [partyPost]))
        [.deliver 0, .viewChanged (applyWrites .empty [partyPost, picnicPost]), .deliver 0]).map
      (fun x => (x.1.postIdsOf x.2, x.2.deliveredKeys)) =
      some ([some "-L1", some "-L0"], ["-L0", "-L1"]) := by decide
  have hrun : ∃ t, (@machine Platform.reference).run
      (launch (some "ann") (applyWrites .empty [partyPost])).viewWillAppear
      [.deliver 0, .viewChanged (applyWrites .empty [partyPost, picnicPost]), .deliver 0] =
        some t := Option.isSome_iff_exists.mp (by decide)
  obtain ⟨t, hrun⟩ := hrun
  obtain ⟨sub, hhistory, -, -, hsorted, -⟩ :=
    @newest_first Platform.reference (some "ann") (applyWrites .empty [partyPost]) [] _ rfl
      (by decide) _ t hrun
  have hhistory' := congrArg (Option.map fun x => (x.1.postIdsOf x.2, x.2.deliveredKeys)) hhistory
  obtain ⟨hids, hkeys⟩ := Prod.mk.inj (Option.some.inj (hhistory'.symm.trans hfacts))
  exact ⟨t, sub, hhistory, hids, hsorted (by rw [hkeys]; decide)⟩

/-- Ann's party, made first on a device that was offline, reaches the server after Bob's
picnic. -/
theorem late_post_first :
    ∃ t sub, ((@machine Platform.reference).withHistory (Subscription.note 0)).run
        ((launch (some "ann") (applyWrites .empty [picnicPost])).viewWillAppear,
          .initial (applyWrites .empty [picnicPost]))
        [.deliver 0, .viewChanged (applyWrites .empty [picnicPost, partyPost]), .deliver 0] =
          some (t, sub) ∧
      t.postIdsOf sub = [some "-L0", some "-L1"] ∧ ¬ Descending (t.postIdsOf sub) := by
  have hfacts : (((@machine Platform.reference).withHistory (Subscription.note 0)).run
        ((launch (some "ann") (applyWrites .empty [picnicPost])).viewWillAppear,
          .initial (applyWrites .empty [picnicPost]))
        [.deliver 0, .viewChanged (applyWrites .empty [picnicPost, partyPost]), .deliver 0]).map
      (fun x => x.1.postIdsOf x.2) = some [some "-L0", some "-L1"] := by decide
  obtain ⟨⟨t, sub⟩, hrun, hids⟩ := Option.map_eq_some_iff.mp hfacts
  refine ⟨t, sub, hrun, hids, ?_⟩
  rintro ⟨keys, hkeys, hdesc⟩
  rw [hids] at hkeys
  obtain rfl : ["-L0", "-L1"] = keys :=
    List.map_injective_iff.mpr (Option.some_injective _) hkeys
  exact absurd hdesc (by decide)

end App

end MDBSocials
