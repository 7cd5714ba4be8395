import MDBSocials.PostSchema
import MDBSocials.Screens

/-!
# What the Forms Let Through

The handlers of the forms check `hasText` of their fields. What they let through waits for an
upload or an account before it is written, on another turn of the device and perhaps in
another session, and is then read on every device.

## Main results

* `Filled.step`: a step of the world in which no blank call is made issues no blank write.
* `get_applyWrites_ne_blank`: writes without blanks leave no blanks in the database.
* `nothing_blank`: in every run through the forms, no record has an empty name, description,
  user name or email address, at the server or in any view.
-/

namespace MDBSocials

/-! ### Writes and calls without blanks -/

/-- A user's record without blanks. -/
structure NewUser.Filled (user : NewUser) : Prop where
  name : user.name ≠ ""
  username : user.username ≠ ""
  email : user.email ≠ ""

/-- A write without blanks where the forms check. -/
def Write.Filled : Write → Prop
  | .newPost _ post => post.name ≠ "" ∧ post.description ≠ ""
  | .createNewUser _ user => user.Filled
  | .updateInterested _ _ _ => True

/-- The locations of the fields that the forms check. -/
inductive Checked : Path → Prop
  | postName (key : Key) : Checked ["Posts", key, "name"]
  | postDescription (key : Key) : Checked ["Posts", key, "description"]
  | userName (uid : Uid) : Checked ["User", uid, "name"]
  | userUsername (uid : Uid) : Checked ["User", uid, "username"]
  | userEmail (uid : Uid) : Checked ["User", uid, "email"]

theorem get_of_sub_eq_leaf {t : Node} {key : Key} {x : Scalar} (h : t.sub [key] = .leaf x) :
    t.get [key] = some x := by
  have hget : t.get [key] = (t.sub [key]).get [] := rfl
  rw [hget, h]
  rfl

/-- A write that reaches a checked field puts no blank there. -/
theorem Write.Filled.value_ne_blank {w : Write} (hw : w.Filled) {p : Path} (hp : Checked p)
    (hpath : w.path <+: p) : w.value.get (p.drop w.path.length) ≠ some (.string "") := by
  have hblank : ∀ {t : Node} {key : Key} {text : String}, t.sub [key] = .leaf (.string text) →
      text ≠ "" → t.get [key] ≠ some (.string "") := by
    intro t key text hsub htext hget
    rw [get_of_sub_eq_leaf hsub] at hget
    exact htext (Scalar.string.inj (Option.some.inj hget))
  cases w with
  | newPost key post =>
      have hpost := post.isPost_node
      cases hp with
      | postName => exact hblank hpost.name hw.1
      | postDescription => exact hblank hpost.description hw.2
      | _ => simp [Write.path, List.cons_prefix_cons] at hpath
  | createNewUser uid user =>
      have huser := user.isUser_node
      cases hp with
      | userName => exact hblank huser.name hw.name
      | userUsername => exact hblank huser.username hw.username
      | userEmail => exact hblank huser.email hw.email
      | _ => simp [Write.path, List.cons_prefix_cons] at hpath
  | updateInterested postId key uid =>
      cases hp <;> simp [Write.path, List.cons_prefix_cons] at hpath

/-- **Writes without blanks** leave no blanks where the forms check. -/
theorem get_applyWrites_ne_blank {us : List Write} (h : ∀ x ∈ us, x.Filled) {p : Path}
    (hp : Checked p) : (applyWrites .empty us).get p ≠ some (.string "") := by
  induction us using List.reverseRecOn with
  | nil => rintro ⟨⟩
  | append_singleton us x ih =>
      have hold := ih fun y hy => h y (List.mem_append_left _ hy)
      have hx := h x (List.mem_append_right _ (List.mem_singleton_self x))
      rw [applyWrites_snoc, PathTree.get_set]
      split
      · rename_i hpath
        exact hx.value_ne_blank hp hpath
      · split
        · rintro ⟨⟩
        · exact hold

section Calls

variable [Platform]

/-- A call of a helper without blanks where the forms check. -/
def ClientAction.Filled : ClientAction → Prop
  | .newPostWithImage submission => submission.name ≠ "" ∧ submission.description ≠ ""
  | .signUp user => user.Filled
  | _ => True

theorem NewSocialViewController.filled_submission {n : NewSocialViewController}
    {submission : Submission} (h : n.submission = some submission) :
    submission.name ≠ "" ∧ submission.description ≠ "" := by
  obtain ⟨hfields, h⟩ := Option.ite_none_right_eq_some.mp h
  obtain ⟨image, -, rfl⟩ := Option.map_eq_some_iff.mp h
  simpa [hasText] using hfields

omit [Platform] in
theorem SignupViewController.filled_newUser {f : SignupViewController} {user : NewUser}
    (h : f.newUser = some user) : user.Filled := by
  obtain ⟨hfields, h⟩ := Option.ite_none_right_eq_some.mp h
  obtain rfl := Option.some.inj h
  simp only [hasText, Bool.and_eq_true, decide_eq_true_eq] at hfields
  exact ⟨hfields.1.1.1, hfields.1.1.2, hfields.1.2⟩

/-- **Nothing blank is called** from a screen. -/
theorem UI.filled_input {ι : Type} {u : UI ι} {c : ι} {x : ScreenAction} {a : ClientAction}
    {s : Screens} (h : u.input c x = some (some a, s)) : a.Filled := by
  cases input_calls h with
  | @device a hform =>
      cases a with
      | newPostWithImage | signUp => cases hform
      | _ => trivial
  | tappedCreateAccount htouch hf huser => exact SignupViewController.filled_newUser huser
  | tappedSubmit htouch hn hsubmission =>
      exact NewSocialViewController.filled_submission hsubmission
  | tappedLogin | logOut | logOutFails => trivial

end Calls

/-! ### Requests and writes -/

namespace World

variable [Platform] {ι : Type} {w w' : World ι} {c : ι} {a : ClientAction}

/-- All that waits to be written, and all that is written, is without blanks. -/
structure Filled (w : World ι) : Prop where
  uploads : ∀ c, ∀ u ∈ (w.clients c).uploads ++ (w.clients c).uploaded,
    u.submission.name ≠ "" ∧ u.submission.description ≠ ""
  signUps : ∀ c, ∀ user ∈ (w.clients c).signUps ++ (w.clients c).signedUp, user.Filled
  issued : ∀ x, w.db.Issued x → x.Filled

theorem filled_initial : Filled (initial : World ι) where
  uploads c u hu := by cases hu
  signUps c user huser := by cases huser
  issued x hx := by rcases hx with hx | ⟨c, hx⟩ <;> cases hx

variable [DecidableEq ι]

/-- Uploads are of submissions to `newPostWithImage`, and its user's. -/
theorem Step.submissions (h : Step w c a w') {d : ι} {u : Upload}
    (hu : u ∈ (w'.clients d).uploads ++ (w'.clients d).uploaded) :
    u ∈ (w.clients d).uploads ++ (w.clients d).uploaded ∨
      d = c ∧ a = .newPostWithImage u.submission ∧
        MDBSocials.newPostWithImage (w.app c).currentUser u.submission = .ok u := by
  by_cases hd : d = c
  · subst hd
    cases h with
    | @newPostWithImage submission v hv =>
        simp only [clients_modify_self, List.mem_append, List.mem_singleton] at hu ⊢
        rcases hu with (hu | rfl) | hu
        · exact Or.inl (Or.inl hu)
        · obtain ⟨data, -, hdata⟩ := bind_eq_ok.mp hv
          obtain rfl := Except.ok.inj hdata
          exact Or.inr ⟨trivial, rfl, hv⟩
        · exact Or.inl (Or.inr hu)
    | @pictureStored i v hv =>
        simp only [clients_modify_self, List.mem_append, List.mem_singleton] at hu ⊢
        rcases hu with hu | hu | rfl
        · exact Or.inl (Or.inl (List.mem_of_mem_eraseIdx hu))
        · exact Or.inl (Or.inr hu)
        · exact Or.inl (Or.inl (List.mem_of_getElem? hv))
    | uploadFails | uploadReplyLost | uploadSucceeds =>
        simp only [World.issue, World.refresh, setApp, clients_modify_self, List.mem_append]
          at hu ⊢
        exact Or.inl (hu.imp (fun h => by first | exact List.mem_of_mem_eraseIdx h | exact h)
          (fun h => by first | exact List.mem_of_mem_eraseIdx h | exact h))
    | terminate | trapped => simp [World.terminate, World.trapped] at hu
    | arrive => exact Or.inl hu
    | _ => exact Or.inl (by simpa [World.issue, World.refresh, setApp] using hu)
  · exact Or.inl (h.clients_of_ne hd ▸ hu)

/-- Sign-ups are calls of `signUp`. -/
theorem step_newUsers (h : w.step (c, a) = some w') {d : ι} {user : NewUser}
    (hu : user ∈ (w'.clients d).signUps ++ (w'.clients d).signedUp) :
    user ∈ (w.clients d).signUps ++ (w.clients d).signedUp ∨ a = .signUp user := by
  have hst := step_cases h
  by_cases hd : d = c
  · subst hd
    cases hst with
    | signUp =>
        simp only [clients_modify_self, List.mem_append, List.mem_singleton] at hu ⊢
        rcases hu with (hu | rfl) | hu
        · exact Or.inl (Or.inl hu)
        · exact Or.inr rfl
        · exact Or.inl (Or.inr hu)
    | accountCreated =>
        obtain ⟨-, user', huser', hw'⟩ := step_accountCreated h
        rw [hw'] at hu
        simp only [clients_modify_self, List.mem_append, List.mem_singleton] at hu ⊢
        rcases hu with hu | hu | rfl
        · exact Or.inl (Or.inl (List.mem_of_mem_eraseIdx hu))
        · exact Or.inl (Or.inr hu)
        · exact Or.inl (Or.inl (List.mem_of_getElem? huser'))
    | signUpFails | signUpSucceeds =>
        simp only [World.issue, World.refresh, setApp, clients_modify_self, List.mem_append]
          at hu ⊢
        exact Or.inl (hu.imp (fun h => by first | exact List.mem_of_mem_eraseIdx h | exact h)
          (fun h => by first | exact List.mem_of_mem_eraseIdx h | exact h))
    | terminate | trapped => simp [World.terminate, World.trapped] at hu
    | arrive => exact Or.inl hu
    | _ => exact Or.inl (by simpa [World.issue, World.refresh, setApp] using hu)
  · exact Or.inl (hst.clients_of_ne hd ▸ hu)

/-- **No blank is written** in a step that calls nothing blank. -/
theorem Filled.step (h : Filled w) (ha : a.Filled) (hst : w.step (c, a) = some w') :
    Filled w' := by
  have hcases := step_cases hst
  refine ⟨fun d u hu => ?_, fun d user huser => ?_, fun x hx => ?_⟩
  · rcases hcases.submissions hu with hu | ⟨-, rfl, -⟩
    · exact h.uploads d u hu
    · exact ha
  · rcases step_newUsers hst huser with huser | rfl
    · exact h.signUps d user huser
    · exact ha
  · rcases hcases.db.issued hx with hold | hissues
    · exact h.issued x hold
    · cases hissues with
      | tappedInterested => trivial
      | uploadSucceeds hu huid =>
          exact h.uploads c _ (List.mem_append_right _ (List.mem_of_getElem? hu))
      | signUpSucceeds hu huid =>
          exact h.signUps c _ (List.mem_append_right _ (List.mem_of_getElem? hu))

end World

namespace UI

variable [Platform] {ι : Type} [DecidableEq ι] {u : UI ι}

/-- **Nothing blank.** In every run of any number of devices with their screens, whatever is
refused, lost or interrupted, no post has an empty name or description and no user an empty
name, user name or email address: not at the server, nor in what any device sees. -/
theorem nothing_blank {as : List (ι × ScreenAction)} (hrun : machine.run initial as = some u)
    {p : Path} (hp : Checked p) : u.world.serverTree.get p ≠ some (.string "") ∧
      ∀ c, (u.world.localView c).get p ≠ some (.string "") := by
  have hfilled : u.world.Filled := by
    refine Machine.run_invariant (I := fun u : UI ι => u.world.Filled) ?_ World.filled_initial hrun
    rintro u ⟨c, x⟩ u' h hst
    rcases (step_cases hst).world with hsame | ⟨a, s, hinput, hstep⟩
    · exact hsame ▸ h
    · exact h.step (filled_input hinput) hstep
  exact ⟨get_applyWrites_ne_blank (fun x hx => hfilled.issued x (Or.inl hx)) hp,
    fun c => get_applyWrites_ne_blank
      (fun x hx => hfilled.issued x (Replica.issued_of_mem_viewSeq hx)) hp⟩

end UI

/-! ### A submission -/

namespace UI

attribute [local instance] Platform.reference

theorem nothing_blank_submitted : ∃ u : UI ℕ, machine.run initial (annSubmits ++
      [(0, .device (.pictureStored 0)), (0, .device (.uploadSucceeds 0 "-L0"))]) = some u ∧
    (u.world.localView 0).get ["Posts", "-L0", "name"] = some (.string "Party") ∧
    (u.world.localView 0).get ["Posts", "-L0", "name"] ≠ some (.string "") := by
  have hrun : (machine.run (initial : UI ℕ) (annSubmits ++ [(0, .device (.pictureStored 0)),
      (0, .device (.uploadSucceeds 0 "-L0"))])).map (fun u =>
        (u.world.localView 0).get ["Posts", "-L0", "name"]) = some (some (.string "Party")) := by
    decide
  obtain ⟨u, hu, hname⟩ := Option.map_eq_some_iff.mp hrun
  exact ⟨u, hu, hname, (nothing_blank hu (.postName "-L0")).2 0⟩

end UI

end MDBSocials
