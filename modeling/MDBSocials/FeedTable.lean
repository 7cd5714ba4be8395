import MDBSocials.FeedSubscription

/-!
# The Rows of the Feed

The table view asks for the rows that it loaded at the last `reloadData`, and the feed
looks each of them up in `posts`. Both handlers that add to or show the posts reload the
table, but the subscribing branch of `viewWillAppear` empties `posts` and leaves the table
with its old rows until the first event is delivered.

## Main results

* `step_table`: a step reloads the table, leaves it and the posts alone, or subscribes.
* `table_in_step`: the runs in which the table and the posts stay in step are those in
  which the feed subscribes only while it has no posts.
* `table_out_of_step`: after signing out and in again, a row of the table is no post.
-/

namespace MDBSocials

namespace App

/-- The table has the posts of the feed as its rows, so that every row it asks for is one
of the posts, and the post that is selected with a row is the one the row stands for. -/
structure InStep (s : App) : Prop where
  rows : s.feed.table = s.feed.posts
  asked : ∀ row < s.feed.table.length, row < s.feed.posts.length
  selected : ∀ row r, s.feed.table[row]? = some r →
    ∃ t, s.didSelectRowAt row = .ok t ∧ t.feed.selectedPost = some r

/-- The feed subscribes only while it has no posts. -/
def SubscribesEmpty (s : App) (a : Action) : Prop := s.Subscribes a → s.feed.posts = []

instance (s : App) (a : Action) : Decidable (s.SubscribesEmpty a) :=
  inferInstanceAs (Decidable (_ → _))

theorem inStep_iff {s : App} : s.InStep ↔ s.feed.table = s.feed.posts := by
  refine ⟨InStep.rows, fun h => ⟨h, fun row hrow => h ▸ hrow, fun row r hr => ?_⟩⟩
  rw [h] at hr
  refine ⟨{ s with feed.selectedPost := some r, detail := some { post := r } }, ?_, rfl⟩
  simp only [didSelectRowAt, hr]

section Runs

variable [Platform]

/-- A row that the table has and the feed has not ends the process. -/
theorem cellForRowAt_stale {s : App} {row : ℕ} (hrow : s.feed.posts.length ≤ row)
    (cell : CellRef) : s.cellForRowAt row cell = .error .indexOutOfRange := by
  simp only [cellForRowAt, List.getElem?_eq_none hrow]

/-- **One step**: the table is reloaded, or it and the posts are left alone, or the feed
subscribes, which empties the posts only. -/
theorem step_table {s t : App} {a : Action} (h : s.step a = some t) :
    (¬ s.Subscribes a ∧ (t.feed.table = t.feed.posts ∨
      t.feed.table = s.feed.table ∧ t.feed.posts = s.feed.posts)) ∨
    s.Subscribes a ∧ t.feed.table = s.feed.table ∧ t.feed.posts = [] := by
  cases step_feed h with
  | subscribes hsub =>
      refine Or.inr ⟨hsub, ?_⟩
      rw [viewWillAppear, if_neg hsub.1, if_pos hsub.2]
      exact ⟨rfl, rfl⟩
  | viewChanged view => exact Or.inl ⟨id, Or.inr ⟨rfl, rfl⟩⟩
  | deliver hd => exact Or.inl ⟨id, Or.inl hd.table⟩
  | kept hsub hview hdeliver hkept =>
      exact Or.inl ⟨hsub, hkept.table.symm.imp_right fun htable => ⟨htable, hkept.posts⟩⟩

/-- The posts of the feed stay, go, or get the next object in front of them. -/
theorem step_posts {s t : App} {a : Action} (h : s.step a = some t) :
    t.feed.posts = s.feed.posts ∨ t.feed.posts = [] ∨
      t.feed.posts = s.nextRef :: s.feed.posts := by
  cases step_feed h with
  | subscribes hsub =>
      rw [viewWillAppear, if_neg hsub.1, if_pos hsub.2]
      exact Or.inr (Or.inl rfl)
  | viewChanged view => exact Or.inl rfl
  | deliver hd => exact Or.inr (Or.inr hd.posts)
  | kept hsub hview hdeliver hkept => exact Or.inl hkept.posts

/-- No object is twice in the feed: each delivery makes a new one. -/
theorem posts_nodup {u : Option Uid} {view : Node} {as : List Action} {s : App}
    (hrun : machine.run (launch u view) as = some s) : s.Allocated ∧ s.feed.posts.Nodup := by
  refine Machine.run_invariant (I := fun s => s.Allocated ∧ s.feed.posts.Nodup) ?_
    ⟨allocated_launch u view, List.nodup_nil⟩ hrun
  rintro s a t ⟨hs, hnodup⟩ h
  refine ⟨hs.step h, ?_⟩
  rcases step_posts h with hposts | hposts | hposts
  · exact hposts ▸ hnodup
  · exact hposts ▸ List.nodup_nil
  · have hnew : s.nextRef ∉ s.feed.posts := fun hmem =>
      Nat.lt_irrefl _ (hs _ (.ofPosts hmem))
    exact hposts ▸ List.nodup_cons.mpr ⟨hnew, hnodup⟩

/-- A step keeps the table and the posts in step exactly when it does not subscribe a feed
that has posts. -/
theorem InStep.step {s t : App} {a : Action} (hs : s.InStep) (h : s.step a = some t) :
    t.InStep ↔ s.SubscribesEmpty a := by
  rw [inStep_iff]
  rcases step_table h with ⟨hsub, htable | ⟨htable, hposts⟩⟩ | ⟨hsub, htable, hposts⟩
  · exact iff_of_true htable fun hsub' => absurd hsub' hsub
  · exact iff_of_true (by rw [htable, hposts, hs.rows]) fun hsub' => absurd hsub' hsub
  · rw [htable, hposts, hs.rows]
    exact ⟨fun hnil _ => hnil, fun hnil => hnil hsub⟩

/-- **Table and posts.** In a run of the application the table and the posts are in step
whenever a handler has returned, exactly when each subscription is made by a feed that
has no posts. -/
theorem table_in_step (u : Option Uid) (view : Node) {as : List Action} {s : App}
    (hrun : machine.run (launch u view) as = some s) :
    machine.Always InStep (launch u view) as ↔
      machine.Guarded SubscribesEmpty (launch u view) as :=
  Machine.always_iff_guarded (A := fun _ => True) (I := fun _ => True) (P := InStep)
    (fun _ _ _ _ _ _ => trivial) (fun _ _ _ _ _ hs hst => hs.step hst) trivial
    (inStep_iff.mpr rfl) (fun _ _ => trivial) hrun

end Runs

/-! ### Before and after signing in again -/

theorem table_in_step_first_login :
    ∃ s, (@machine Platform.reference).run (launch none .empty)
      [.viewWillAppear, .tappedLogin "ann", .signInReply "ann" true, .viewWillAppear,
        .viewChanged (applyWrites .empty [partyPost]), .deliver 0, .viewWillAppear] = some s ∧
      s.feed.table.length = 1 ∧ (@machine Platform.reference).Always InStep (launch none .empty)
        [.viewWillAppear, .tappedLogin "ann", .signInReply "ann" true, .viewWillAppear,
          .viewChanged (applyWrites .empty [partyPost]), .deliver 0, .viewWillAppear] := by
  have hrun : ((@machine Platform.reference).run (launch none .empty)
      [.viewWillAppear, .tappedLogin "ann", .signInReply "ann" true, .viewWillAppear,
        .viewChanged (applyWrites .empty [partyPost]), .deliver 0, .viewWillAppear]).map
      (fun s => s.feed.table.length) = some 1 := by decide
  obtain ⟨s, hs, hlength⟩ := Option.map_eq_some_iff.mp hrun
  exact ⟨s, hs, hlength, (@table_in_step Platform.reference none .empty _ s hs).mpr (by decide)⟩

/-- Ann signs out and in again: her feed is empty and its table has a row, and asking for
it ends the process. -/
theorem table_out_of_step :
    ∃ as s, (@machine Platform.reference).run
      (launch (some "ann") (applyWrites .empty [partyPost])) as = some s ∧ ¬ s.InStep ∧
      @perform Platform.reference s (.cellForRowAt 0 0) = some (.error .indexOutOfRange) := by
  have hrun : ((@machine Platform.reference).run
      (launch (some "ann") (applyWrites .empty [partyPost]))
      [.viewWillAppear, .deliver 0, .logOut true false, .tappedLogin "ann",
        .signInReply "ann" true, .viewWillAppear]).map
      (fun s => (s.feed.table, s.feed.posts)) = some ([0], []) := by decide
  obtain ⟨s, hs, hfacts⟩ := Option.map_eq_some_iff.mp hrun
  obtain ⟨htable, hposts⟩ := Prod.mk.inj hfacts
  refine ⟨_, s, hs, fun h => ?_, ?_⟩
  · have hrows := h.rows
    rw [htable, hposts] at hrows
    cases hrows
  · have hrow : 0 < s.feed.table.length := by simp [htable]
    simp only [perform, if_pos hrow, @cellForRowAt_stale Platform.reference s 0 (by simp [hposts])]

end App

end MDBSocials
