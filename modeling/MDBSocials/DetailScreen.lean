import MDBSocials.FeedRecords

/-!
# Opening a Post

`DetailViewController.viewWillAppear` unwraps the name of the event and the name of the
poster. The first is decoded with the post. The second is filled in by the completion of
a `getUserWithId` that rendering a row started, for the object that the row stood for.

## Main results

* `detail_appears_iff`: over all runs with well-formed records, the detail screen of a
  post appears if and only if such a completion has succeeded for that very object.
* `detail_traps_before_reply`: a tap on a row before the reply ends the process.
-/

namespace MDBSocials

/-- The records in a view are as `newPost` writes them. -/
def WellFormedView (view : Node) : Prop := PostsOf (fun _ _ => True) view

/-- The records that reach the application are as `newPost` and `createNewUser` write
them. -/
def Action.WellFormed : Action → Prop
  | .viewChanged view => WellFormedView view
  | .userReply _ (some node) => ∃ user, IsUser user node
  | _ => True

/-- The completion of a `getUserWithId` for a post, with its user. -/
def Action.NamesPoster (r : PostRef) : Action → Prop
  | .userReply q (some _) => q.post = r
  | _ => False

theorem Action.NamesPoster.writesObjects {r : PostRef} {a : Action} (h : a.NamesPoster r) :
    a.writesObjects = true := by
  cases a with
  | userReply q node =>
      cases node with
      | none => exact h.elim
      | some node => rfl
  | _ => exact h.elim

namespace App

section Runs

variable [Platform]

/-! ### Who names posters -/

/-- The reply to a `getUserWithId` names the poster of its post, and of no other. -/
theorem userReply_posterName {s t : App} {q : UserRequest} {node : Option Node}
    (h : s.userReply q node = .ok t) (r : PostRef) :
    (t.objects r).posterName ≠ none ↔
      (s.objects r).posterName ≠ none ∨ (Action.userReply q node).NamesPoster r := by
  cases node with
  | none =>
      obtain rfl := Except.ok.inj h
      simp [Action.NamesPoster]
  | some node =>
      obtain ⟨user, name, -, -, rfl⟩ := userReply_some_eq_ok.mp h
      by_cases hr : r = q.post
      · subst hr
        simp [Action.NamesPoster]
      · simp [Action.NamesPoster, hr, Ne.symm hr]

/-- **One step**: the poster of an object that is there is named by such a reply, and
by nothing else. -/
theorem step_posterName {s t : App} {a : Action} (h : s.step a = some t) {r : PostRef}
    (hr : t.nextRef = s.nextRef ∨ r ≠ s.nextRef) :
    (t.objects r).posterName ≠ none ↔
      (s.objects r).posterName ≠ none ∨ a.NamesPoster r := by
  have same : ∀ {b : Action}, ¬ b.NamesPoster r →
      (t.objects r).posterName = (s.objects r).posterName →
      ((t.objects r).posterName ≠ none ↔
        (s.objects r).posterName ≠ none ∨ b.NamesPoster r) := by
    intro b hb hsame
    rw [hsame, or_iff_left hb]
  by_cases hwrites : a.writesObjects
  · have h' := step_eq_some.mp h
    cases a with
    | deliver i =>
        obtain ⟨o, snap, queue, post, hd⟩ := step_deliver h
        have hne : r ≠ s.nextRef := hr.resolve_left (by simp [hd.nextRef])
        exact same id (by rw [hd.objects, Function.update_of_ne hne])
    | pictureReply q data =>
        cases data with
        | none => cases hwrites
        | some data =>
            obtain ⟨-, h'⟩ := Option.ite_none_right_eq_some.mp h'
            obtain rfl := Except.ok.inj (Option.some.inj h')
            refine same id ?_
            rw [pictureReply_some]
            by_cases hq : r = q.post
            · simp [hq]
            · simp [hq]
    | userReply q node =>
        obtain ⟨-, h'⟩ := Option.ite_none_right_eq_some.mp h'
        exact userReply_posterName (Option.some.inj h') r
    | tappedInterested key =>
        obtain ⟨d, uid, -, -, hobjects⟩ := step_tappedInterested h
        refine same id ?_
        rw [hobjects]
        by_cases hq : r = d.post
        · simp [appendInterested, modifyPost, hq]
        · simp [appendInterested, modifyPost, hq]
    | _ => cases hwrites
  · exact same (fun hnames => hwrites hnames.writesObjects)
      (by rw [step_objects (Bool.not_eq_true _ ▸ hwrites) h])

/-- The posters named after a run are those named by its replies, and the replies were
for objects that are there. -/
structure NamedBy (as : List Action) (s : App) : Prop where
  named : ∀ r, (s.objects r).posterName ≠ none ↔ ∃ a ∈ as, a.NamesPoster r
  there : ∀ r, (∃ a ∈ as, a.NamesPoster r) → r < s.nextRef

theorem NamedBy.step {as : List Action} {s t : App} {a : Action} (h : NamedBy as s)
    (hs : s.Allocated) (hst : s.step a = some t) : NamedBy (as ++ [a]) t := by
  have hnew : ∀ r, a.NamesPoster r → r < s.nextRef := by
    intro r hr
    cases a with
    | userReply q node =>
        obtain ⟨hq, -⟩ := Option.ite_none_right_eq_some.mp (step_eq_some.mp hst)
        cases node with
        | none => exact hr.elim
        | some node => exact hs r (hr ▸ .ofUser hq)
    | _ => exact hr.elim
  have hsplit : ∀ r, (∃ b ∈ as ++ [a], b.NamesPoster r) ↔
      (∃ b ∈ as, b.NamesPoster r) ∨ a.NamesPoster r := by
    intro r
    simp only [List.mem_append, List.mem_singleton]
    constructor
    · rintro ⟨b, hb | rfl, hbr⟩
      · exact Or.inl ⟨b, hb, hbr⟩
      · exact Or.inr hbr
    · rintro (⟨b, hb, hbr⟩ | hbr)
      · exact ⟨b, Or.inl hb, hbr⟩
      · exact ⟨a, Or.inr rfl, hbr⟩
  refine ⟨fun r => ?_, fun r hr => ?_⟩
  · rw [hsplit, ← h.named]
    rcases step_nextRef hst with hnext | ⟨i, o, snap, queue, post, hd⟩
    · exact step_posterName hst (Or.inl hnext)
    · by_cases hr : r = s.nextRef
      · -- the new object has no poster's name, and no reply was for it
        subst hr
        have hnone : (t.objects s.nextRef).posterName = none := by
          rw [hd.objects, Function.update_self]
          exact (fetchedPost_fresh hd.decoded).1
        have hold : (s.objects s.nextRef).posterName = none := by
          by_contra hold
          exact Nat.lt_irrefl _ (h.there _ ((h.named _).mp hold))
        have ha : ¬ a.NamesPoster s.nextRef := fun ha => Nat.lt_irrefl _ (hnew _ ha)
        simp [hnone, hold, ha]
      · exact step_posterName hst (Or.inr hr)
  · have hle : s.nextRef ≤ t.nextRef := by
      rcases step_nextRef hst with hnext | ⟨i, o, snap, queue, post, hd⟩
      · exact Nat.le_of_eq hnext.symm
      · exact hd.nextRef ▸ Nat.le_succ _
    rcases (hsplit r).mp hr with hr | hr
    · exact Nat.lt_of_lt_of_le (h.there r hr) hle
    · exact Nat.lt_of_lt_of_le (hnew r hr) hle

/-- **Opening a post.** In every run with well-formed records, the detail screen of the
selected post appears exactly when a `getUserWithId` started for that object has
succeeded before. -/
theorem detail_appears_iff (u : Option Uid) {view : Node} (hview : WellFormedView view)
    {as : List Action} {s : App} (hrun : machine.run (launch u view) as = some s)
    (has : ∀ a ∈ as, a.WellFormed) {d : DetailViewController} (hd : s.detail = some d) :
    (∃ t, s.detailWillAppear d = .ok t) ↔ ∃ a ∈ as, a.NamesPoster d.post := by
  have hinv : (∀ a ∈ as, a.WellFormed) → Faithful (fun _ _ => True) s ∧ NamedBy as s := by
    refine Machine.run_induction (M := machine) (motive := fun as s =>
      (∀ a ∈ as, a.WellFormed) → Faithful (fun _ _ => True) s ∧ NamedBy as s) ?_ ?_ hrun
    · exact fun _ => ⟨.launch u hview, ⟨fun r => by simp [launch], by simp⟩⟩
    · intro as s a t _ ih hst has
      obtain ⟨hfaith, hnamed⟩ := ih fun b hb => has b (List.mem_append_left _ hb)
      have ha : a.WellFormed := has a (by simp)
      refine ⟨hfaith.step (fun view hav => ?_) hst, hnamed.step hfaith.allocated hst⟩
      subst hav
      exact ha
  obtain ⟨hfaith, hnamed⟩ := hinv has
  have hthere : d.post < s.nextRef :=
    hfaith.allocated d.post (.ofDetail hd)
  obtain ⟨title, htitle⟩ := Option.ne_none_iff_exists'.mp (hfaith.eventName hthere)
  rw [← hnamed.named, Option.ne_none_iff_exists']
  constructor
  · rintro ⟨t, ht⟩
    obtain ⟨-, posterName, -, hname, -⟩ := detailWillAppear_eq_ok.mp ht
    exact ⟨posterName, hname⟩
  · rintro ⟨posterName, hname⟩
    exact detailWillAppear_ok htitle hname

end Runs

/-! ### Before and after the reply -/

theorem wellFormedView_party : WellFormedView (applyWrites .empty [partyPost]) := by
  have hparty : (applyWrites .empty [partyPost]) =
      PathTree.set .empty partyPost.path partyPost.value := applyWrites_snoc .empty [] partyPost
  rw [WellFormedView, hparty]
  exact (postsOf_empty _).write trivial

theorem detail_appears_after_reply :
    ∃ s d t, (@machine Platform.reference).run
      (launch (some "ann") (applyWrites .empty [partyPost]))
      [.viewWillAppear, .deliver 0, .cellForRowAt 0 0,
        .userReply ⟨0, 0, "ann"⟩ (some (NewUser.node ⟨"Ann", "ann1", "ann@x.org"⟩)),
        .didSelectRowAt 0] = some s ∧
      s.detail = some d ∧ @detailWillAppear Platform.reference s d = .ok t := by
  have hrun : ((@machine Platform.reference).run
      (launch (some "ann") (applyWrites .empty [partyPost]))
      [.viewWillAppear, .deliver 0, .cellForRowAt 0 0,
        .userReply ⟨0, 0, "ann"⟩ (some (NewUser.node ⟨"Ann", "ann1", "ann@x.org"⟩)),
        .didSelectRowAt 0]).map App.detail = some (some { post := 0 }) := by decide
  obtain ⟨s, hs, hd⟩ := Option.map_eq_some_iff.mp hrun
  have huser : ∃ user, IsUser user (NewUser.node ⟨"Ann", "ann1", "ann@x.org"⟩) :=
    ⟨_, NewUser.isUser_node _⟩
  obtain ⟨t, ht⟩ := (@detail_appears_iff Platform.reference (some "ann") _
    wellFormedView_party _ s hs (by simpa [Action.WellFormed] using huser) _ hd).mpr
      ⟨.userReply ⟨0, 0, "ann"⟩ (some (NewUser.node ⟨"Ann", "ann1", "ann@x.org"⟩)),
        by simp, rfl⟩
  exact ⟨s, _, t, hs, hd, ht⟩

/-- A tap on a row whose `getUserWithId` is still on its way. -/
theorem detail_traps_before_reply :
    ∃ as s d, (@machine Platform.reference).run
      (launch (some "ann") (applyWrites .empty [partyPost])) as = some s ∧
      (∀ a ∈ as, a.WellFormed) ∧ s.detail = some d ∧
      @detailWillAppear Platform.reference s d =
        .error (.forcedUnwrap "post.posterName!") := by
  have hrun : ((@machine Platform.reference).run
      (launch (some "ann") (applyWrites .empty [partyPost]))
      [.viewWillAppear, .deliver 0, .cellForRowAt 0 0, .didSelectRowAt 0]).map
        (fun s => (s.detail, (s.objects 0).eventName, (s.objects 0).posterName)) =
      some (some { post := 0 }, some "Party", none) := by decide
  obtain ⟨s, hs, hfacts⟩ := Option.map_eq_some_iff.mp hrun
  simp only [Prod.mk.injEq] at hfacts
  obtain ⟨hd, htitle, hname⟩ := hfacts
  exact ⟨_, s, _, hs, by simp [Action.WellFormed], hd,
    @detailWillAppear_unnamed Platform.reference _ _ _ htitle hname⟩

end App

end MDBSocials
