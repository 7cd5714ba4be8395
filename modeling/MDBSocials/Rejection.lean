import MDBSocials.Lib.Rollback
import MDBSocials.PostSchema

/-!
# Refused Writes

A write takes effect in its device's view at once, and the feed, the `Post` objects and
the detail screen copy what they see. When the server refuses the write, the view is
rolled back. Nothing of the application listens to that: `fetchPosts` only observes added
children, and no call of `updateChildValues` is given a completion block.

## Main results

* `extra_of_run`: while a write waits in its device's queue, the database goes through the
  same states as without it, but for this write.
* `rejected_write_rolled_back`: after the refusal the database is as if the write had never
  been issued, and so is all that is read from it later; the application keeps the copies
  it has.
* `rejected_write_remembered`: a refused post stays in the feed, and a refused interest
  keeps the button disabled.
-/

namespace MDBSocials

/-! ### What the application sees of a rollback -/

/-- When posts only go, no observer gets an event. -/
theorem App.viewChanged_eq {s : App} (hs : s.FeedInv) {new : Node}
    (h : (new.sub ["Posts"]).children ⊆ (s.view.sub ["Posts"]).children) :
    s.viewChanged new = { s with view := new } := by
  have hraise : ∀ o ∈ s.observers, o.raise s.view new = o := by
    intro o ho
    have hnone : (childSnapshots new o.location).filter
        (fun snap => snap.key ∉ (s.view.sub o.location).children) = [] := by
      refine List.filter_eq_nil_iff.mpr fun snap hsnap => ?_
      have hkey := (mem_childSnapshots.mp hsnap).1
      rw [hs.locations o ho] at hkey ⊢
      simpa using h hkey
    rw [Observer.raise, hnone, List.append_nil]
  have hmap : s.observers.map (Observer.raise s.view new) = s.observers := by
    rw [List.map_congr_left hraise, List.map_id']
  rw [viewChanged, hmap]

namespace World

variable [Platform] {ι : Type} [DecidableEq ι] {w w' : World ι} {c : ι}

/-- The feed of every device only observes `Posts`. -/
theorem feedInv_of_run {as : List (ι × ClientAction)} (hrun : machine.run initial as = some w) :
    ∀ d, (w.app d).FeedInv := by
  have hinit : ∀ d, ((initial : World ι).app d).FeedInv := fun _ => App.feedInv_launch none .empty
  refine Machine.run_invariant (M := machine) (I := fun w => ∀ d, (w.app d).FeedInv)
    (fun w a w' hw hst d => ?_) hinit hrun
  have hst : Step w a.1 a.2 w' := step_cases hst
  by_cases hd : d = a.1
  · subst hd
    rcases hst.app with ⟨-, u, hlaunch⟩ | ⟨⟨as, hrun, -⟩, -⟩
    · exact hlaunch ▸ App.feedInv_launch u _
    · exact Machine.run_invariant (fun _ _ _ hs h => hs.step h) (hw _) hrun
  · rw [World.app, hst.clients_of_ne hd]
    exact hw d

theorem coherent_of_run {as : List (ι × ClientAction)} (hrun : machine.run initial as = some w) :
    Coherent w :=
  Machine.run_invariant (M := machine) (I := Coherent)
    (fun _ _ _ hw hst => (step_cases hst).coherent hw) coherent_initial hrun

/-- **A refusal** changes nothing of an application but what it reads next. -/
theorem app_reject (hfeed : (w.app c).FeedInv) (hcoherent : Coherent w)
    (h : w.step (c, .reject) = some w') :
    (∃ db, w.db.reject c = some db ∧ w'.db = db) ∧
    w'.app c = { w.app c with view := w'.localView c } ∧
    ∀ d ≠ c, w'.clients d = w.clients d := by
  cases step_cases h with
  | @reject db hdb =>
      refine ⟨⟨db, hdb, rfl⟩, ?_, fun d hd => (Step.reject hdb).clients_of_ne hd⟩
      have happ : (({ w with db }.refresh c).app c) =
          (w.app c).viewChanged (applyWrites .empty (db.viewSeq c)) := by
        rw [app_refresh_self]
        rfl
      rw [happ]
      refine App.viewChanged_eq hfeed fun key hkey => ?_
      rw [hcoherent c]
      obtain ⟨x, hx, hpost⟩ := mem_children_posts.mp hkey
      exact mem_children_posts.mpr ⟨x, Replica.viewSeq_reject_subset hdb hx, hpost⟩
  | trapped htrap =>
      obtain ⟨db, -, htrap⟩ := Option.map_eq_some_iff.mp htrap
      cases htrap

/-! ### The database without the write -/

/-- A write that has left its device's queue does not come back. -/
theorem not_mem_pending_of_run {x : Write} {key : Key} (hx : x.autoKey = some key)
    (hkey : key ∈ w.keys) (hgone : x ∉ w.db.pending c) {as : List (ι × ClientAction)}
    (hrun : machine.run w as = some w') : x ∉ w'.db.pending c := by
  have hinv : key ∈ w'.keys ∧ x ∉ w'.db.pending c := Machine.run_invariant (M := machine)
    (I := fun w => key ∈ w.keys ∧ x ∉ w.db.pending c) (fun w a w' hw hst => by
      refine ⟨(step_cases hst).keys_subset hw.1, fun hmem => ?_⟩
      rcases step_dbEvent hst with ⟨-, hsame⟩ | ⟨e, -, he, hfresh⟩
      · exact hw.2 (hsame ▸ hmem)
      · rcases Replica.mem_pending_of_step he hmem with hmem | rfl
        · exact hw.2 hmem
        · exact (hfresh c x rfl key hx).1.1 hw.1) ⟨hkey, hgone⟩ hrun
  exact hinv.2

/-- **Without the write**, the events of a run lead to the same database, but for the
write, as long as it is in its device's queue. -/
theorem extra_of_run {x : Write} {key : Key} (hx : x.autoKey = some key) (hkey : key ∈ w.keys)
    {r : Replica ι Write} (h : Replica.Extra c x r w.db) {as : List (ι × ClientAction)}
    (hrun : machine.run w as = some w') (hthere : x ∈ w'.db.pending c) :
    ∃ r', Replica.machine.run r (w.dbEvents as) = some r' ∧ Replica.Extra c x r' w'.db := by
  induction as generalizing w r with
  | nil =>
      obtain rfl := Option.some.inj hrun
      exact ⟨r, rfl, h⟩
  | cons a as ih =>
      obtain ⟨w₁, hst, hrest⟩ := Machine.run_cons_eq_some.mp hrun
      have hkey₁ : key ∈ w₁.keys := (step_cases hst).keys_subset hkey
      rw [dbEvents_cons hst]
      rcases step_dbEvent hst with ⟨hnone, hsame⟩ | ⟨e, hevent, he, hfresh⟩
      · rw [hnone]
        exact ih hkey₁ (hsame ▸ h) hrest
      · have hne : e ≠ .issue c x := by
          rintro rfl
          exact (hfresh c x rfl key hx).1.1 hkey
        rcases h.step hne he with ⟨s, hs, hextra⟩ | hgone
        · obtain ⟨r', hr', hextra'⟩ := ih hkey₁ hextra hrest
          rw [hevent]
          exact ⟨r', Machine.run_cons_eq_some.mpr ⟨s, hs, hr'⟩, hextra'⟩
        · exact absurd hthere (not_mem_pending_of_run hx hkey₁ hgone hrest)

/-- A write that has just been issued is one more in the queue. -/
theorem extra_of_issue (hkeys : KeysInv w) {r : Replica ι Write} {x : Write} {key : Key}
    (hx : x.autoKey = some key) (hdb : w.db = r.issue c x) :
    key ∈ w.keys ∧ Replica.Extra c x r w.db := by
  refine ⟨hkeys.made x (hdb ▸ r.issued_issue c x) key hx, hdb ▸ Replica.extra_issue fun hmem => ?_⟩
  -- its key would be in the queue twice
  have hnodup := hkeys.different.queue c
  have hqueue : w.db.pending c = r.pending c ++ [x] := by simp [hdb, Replica.issue]
  rw [hqueue, ← List.append_assoc, List.filterMap_append] at hnodup
  exact (List.nodup_append'.mp hnodup).2.2
    (List.mem_filterMap.mpr ⟨x, List.mem_append_right _ hmem, hx⟩)
    (List.mem_filterMap.mpr ⟨x, List.mem_singleton_self x, hx⟩)

/-- **A refused write is rolled back**, in every run. Take any call of `newPost` or
`updateInterested`, and any further steps after which the server refuses it. The database
is then the one that the same events lead to without the write, so all that is read from
it later knows nothing of the write: the events of the next subscription, and what a new
process reads. The application itself is what it was before the refusal, but for its
view of the database: its posts, `Post` objects and detail screen keep their copies. -/
theorem rejected_write_rolled_back {as bs : List (ι × ClientAction)} {w₀ w₁ w₂ w₃ : World ι}
    {a : ClientAction} {x : Write} {key : Key} (hx : x.autoKey = some key)
    (hrun : machine.run initial as = some w₀) (hissue : machine.step w₀ (c, a) = some w₁)
    (hdb : w₁.db = w₀.db.issue c x) (hbs : machine.run w₁ bs = some w₂)
    (hhead : (w₂.db.pending c).head? = some x)
    (hreject : machine.step w₂ (c, .reject) = some w₃) :
    Replica.machine.run w₀.db (w₁.dbEvents bs) = some w₃.db ∧
    w₃.app c = { w₂.app c with view := w₃.localView c } ∧
    (∀ d ≠ c, w₃.clients d = w₂.clients d) ∧
    ((w₃.app c).Subscribes .viewWillAppear →
      (w₃.app c).viewWillAppear.feed.posts = [] ∧
      (w₃.app c).viewWillAppear.observers = (w₂.app c).observers ++
        [⟨["Posts"], childSnapshots (w₃.localView c) ["Posts"]⟩]) ∧
    (w₃.terminate c).app c = .launch (w₂.app c).currentUser w₃.serverTree := by
  have hrun₁ := Machine.run_snoc_eq_some.mpr ⟨w₀, hrun, hissue⟩
  have hrun₂ := Machine.run_append_eq_some.mpr ⟨w₁, hrun₁, hbs⟩
  have hrun₃ := Machine.run_snoc_eq_some.mpr ⟨w₂, hrun₂, hreject⟩
  obtain ⟨⟨db, hdb₃, hw₃⟩, happ, hothers⟩ :=
    app_reject (feedInv_of_run hrun₂ c) (coherent_of_run hrun₂) hreject
  refine ⟨?_, happ, hothers, fun hsub => ?_, ?_⟩
  · obtain ⟨us, hqueue⟩ : ∃ us, w₂.db.pending c = x :: us := by
      cases hp : w₂.db.pending c with
      | nil => simp [hp] at hhead
      | cons y us => exact ⟨us, by simpa [hp] using hhead⟩
    obtain ⟨hkey, hextra⟩ := extra_of_issue (keysInv_of_run hrun₁) hx hdb
    obtain ⟨r, hr, hextra₂⟩ := extra_of_run hx hkey hextra hbs (hqueue ▸ List.mem_cons_self)
    rw [hr, hw₃, hextra₂.reject hqueue hdb₃]
  · rw [App.viewWillAppear_subscribing (feedInv_of_run hrun₃ c) hsub, happ]
    exact ⟨rfl, rfl⟩
  · have huser : (w₃.app c).currentUser = (w₂.app c).currentUser := by rw [happ]
    have hview : ({ w₃ with db := w₃.db.crash c } : World ι).localView c = w₃.serverTree := by
      rw [localView, serverTree, Replica.viewSeq_crash_self]
    rw [World.terminate, app_modify_self, hview]
    exact congrArg (App.launch · w₃.serverTree) huser

end World

/-! ### What stays in memory -/

section Memory

variable [Platform]

/-- Whether the interested button is enabled when the detail screen appears. -/
def App.buttonWhenAppearing (s : App) : Option Bool := do
  let d ← s.detail
  let t ← (s.detailWillAppear d).toOption
  let d ← t.detail
  return d.interestedButtonEnabled

/-- Nothing of a write is left in what the application has copied. -/
def App.Forgets (s : App) : Write → Prop
  | .newPost key _ => some key ∉ s.postIds
  | .createNewUser _ _ => True
  | .updateInterested postId _ userId =>
      (∀ r ∈ s.feed.posts, (s.objects r).id = some postId →
        userId ∉ (s.objects r).interestedIds) ∧
      ∀ d, s.detail = some d → (s.objects d.post).id = some postId →
        s.buttonWhenAppearing = some true

end Memory

namespace World

attribute [local instance] Platform.reference

/-- What `newPost` writes for Ann's post. -/
def annParty : Write :=
  .newPost "-L0" ⟨"Party", Platform.downloadURL ["postImages", "Party.png"], "ann", "at nine",
    "Feb 21, 9:00 PM"⟩

/-- Ann's post is in her feed, and she has signed out and in again, when it is refused. -/
def annSignsInAgain : List (ℕ × ClientAction) :=
  [(0, .feed (.deliver 0)), (0, .arrive), (0, .feed (.logOut true true)),
    (0, .feed (.tappedLogin "ann")), (0, .feed (.signInReply "ann" true))]

theorem rejected_write_rolled_back_party : ∃ w₀ w₁ w₂ w₃ : World ℕ,
    machine.run initial (annSignsUp ++ annPosts.take 2) = some w₀ ∧
    machine.step w₀ (0, .uploadSucceeds 0 "-L0") = some w₁ ∧
    machine.run w₁ annSignsInAgain = some w₂ ∧ machine.step w₂ (0, .reject) = some w₃ ∧
    Replica.machine.run w₀.db (w₁.dbEvents annSignsInAgain) = some w₃.db ∧
    w₃.app 0 = { w₂.app 0 with view := w₃.localView 0 } ∧
    (w₃.app 0).viewWillAppear.feed.posts = [] ∧
    (w₃.app 0).viewWillAppear.observers = [⟨["Posts"], []⟩] ∧
    (w₃.terminate 0).app 0 = .launch (some "ann") w₃.serverTree := by
  have hall : (machine.run (initial : World ℕ) (annSignsUp ++ annPosts.take 2)).bind (fun w₀ =>
      (machine.step w₀ (0, .uploadSucceeds 0 "-L0")).bind fun w₁ =>
      (machine.run w₁ annSignsInAgain).bind fun w₂ =>
      (machine.step w₂ (0, .reject)).map fun w₃ =>
        decide (w₀.dbEvent (0, .uploadSucceeds 0 "-L0") = some (.issue 0 annParty) ∧
          (w₂.db.pending 0).head? = some annParty ∧ (w₂.app 0).currentUser = some "ann" ∧
          (w₂.app 0).observers.length = 0 ∧ (w₃.app 0).Subscribes .viewWillAppear ∧
          (childSnapshots (w₃.localView 0) ["Posts"]).length = 0)) = some true := by decide
  obtain ⟨w₀, hrun, hall⟩ := Option.bind_eq_some_iff.mp hall
  obtain ⟨w₁, hissue, hall⟩ := Option.bind_eq_some_iff.mp hall
  obtain ⟨w₂, hbs, hall⟩ := Option.bind_eq_some_iff.mp hall
  obtain ⟨w₃, hreject, hall⟩ := Option.map_eq_some_iff.mp hall
  simp only [decide_eq_true_eq, List.length_eq_zero_iff] at hall
  obtain ⟨hevent, hhead, huser, hdetached, hsub, hrolled⟩ := hall
  have hdb : w₁.db = w₀.db.issue 0 annParty := by
    rcases step_dbEvent hissue with ⟨hnone, -⟩ | ⟨e, he, hstep, -⟩
    · rw [hnone] at hevent
      cases hevent
    · obtain rfl := Option.some.inj (he.symm.trans hevent)
      exact (Option.some.inj hstep).symm
  obtain ⟨hreplay, happ, -, hnext, hlaunched⟩ :=
    rejected_write_rolled_back rfl hrun hissue hdb hbs hhead hreject
  obtain ⟨hposts, hobservers⟩ := hnext hsub
  rw [hdetached, hrolled] at hobservers
  rw [huser] at hlaunched
  exact ⟨w₀, w₁, w₂, w₃, hrun, hissue, hbs, hreject, hreplay, happ, hposts, hobservers, hlaunched⟩

/-- All events have been handed to the observers of a device. -/
def delivered (w : World ℕ) (c : ℕ) : Bool := (w.app c).observers.all (·.queue.isEmpty)

/-- The users that the posts of a device's feed list as interested. -/
def listed (w : World ℕ) (c : ℕ) : List (Option Key × List Uid) :=
  (w.app c).feed.posts.map fun r => (((w.app c).objects r).id, ((w.app c).objects r).interestedIds)

/-- The server refuses Ann's post when it is in her feed, where it stays. The server
refuses her interest in her post, and her id stays in the list and the button disabled. -/
theorem rejected_write_remembered :
    (∃ w w' : World ℕ,
      machine.run initial (annSignsUp ++ annPosts ++ [(0, .feed (.deliver 0)), (0, .arrive)]) =
        some w ∧
      (w.db.pending 0).head? = some annParty ∧ machine.step w (0, .reject) = some w' ∧
      delivered w' 0 = true ∧ ¬ (w'.app 0).Forgets annParty) ∧
    ∃ w w' : World ℕ,
      machine.run initial (annSignsUp ++ annPosts ++ tapsInterested 0 "-K0" ++
        [(0, .arrive), (0, .arrive)]) = some w ∧
      (w.db.pending 0).head? = some (.updateInterested "-L0" "-K0" "ann") ∧
      machine.step w (0, .reject) = some w' ∧ delivered w' 0 = true ∧
      listed w' 0 = [(some "-L0", ["ann"])] ∧ (w'.app 0).buttonWhenAppearing = some false ∧
      ¬ (w'.app 0).Forgets (.updateInterested "-L0" "-K0" "ann") := by
  constructor
  · have hrun : (machine.run (initial : World ℕ)
        (annSignsUp ++ annPosts ++ [(0, .feed (.deliver 0)), (0, .arrive)])).bind (fun w =>
          (machine.step w (0, .reject)).map fun w' =>
            ((w.db.pending 0).head?, delivered w' 0, (w'.app 0).postIds)) =
        some (some annParty, true, [some "-L0"]) := by decide
    obtain ⟨w, hw, hstep⟩ := Option.bind_eq_some_iff.mp hrun
    obtain ⟨w', hw', hfacts⟩ := Option.map_eq_some_iff.mp hstep
    simp only [Prod.mk.injEq] at hfacts
    obtain ⟨hhead, hdelivered, hids⟩ := hfacts
    refine ⟨w, w', hw, hhead, hw', hdelivered, fun h => ?_⟩
    have hnot : some "-L0" ∉ (w'.app 0).postIds := h
    simp [hids] at hnot
  · have hrun : (machine.run (initial : World ℕ)
        (annSignsUp ++ annPosts ++ tapsInterested 0 "-K0" ++ [(0, .arrive), (0, .arrive)])).bind
        (fun w => (machine.step w (0, .reject)).map fun w' =>
          decide ((w.db.pending 0).head? = some (.updateInterested "-L0" "-K0" "ann")) &&
            delivered w' 0 && decide (listed w' 0 = [(some "-L0", ["ann"])]) &&
            decide ((w'.app 0).buttonWhenAppearing = some false)) = some true := by decide
    obtain ⟨w, hw, hstep⟩ := Option.bind_eq_some_iff.mp hrun
    obtain ⟨w', hw', hfacts⟩ := Option.map_eq_some_iff.mp hstep
    simp only [Bool.and_eq_true, decide_eq_true_eq] at hfacts
    obtain ⟨⟨⟨hhead, hdelivered⟩, hlisted⟩, hbutton⟩ := hfacts
    refine ⟨w, w', hw, hhead, hw', hdelivered, hlisted, hbutton, fun h => ?_⟩
    have hmem : (some "-L0", ["ann"]) ∈ listed w' 0 := by simp [hlisted]
    obtain ⟨r, hr, heq⟩ := List.mem_map.mp hmem
    obtain ⟨hid, hids⟩ := Prod.mk.inj heq
    have hnot := h.1 r hr hid
    simp [hids] at hnot

end World

end MDBSocials
