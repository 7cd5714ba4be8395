import MDBSocials.Accounts
import MDBSocials.Attribution
import MDBSocials.Pictures

/-!
# Sessions and Screens

The screens stand between the user and the session. The feed presents the login screen over
itself when nobody is signed in, and the spinner keeps every touch from the log-out button
while an upload is on its way. Neither helps against what happens without a touch: the Auth
SDK may end a session by itself, and a request made by an earlier tap may still be answered.

## Main results

* `own_posts`: every post is its submitter's, exactly as long as no session changes without
  a touch while an upload is on its way, nobody submits a post without one, and every picture
  gets a download URL.
* `login_gate`: from an appearance of the feed on, nobody reaches it without being signed
  in, exactly as long as no session ends by itself elsewhere than under the login screen.
-/

namespace MDBSocials

/-! ### Uploads and their submitters -/

/-- Whoever submitted the uploads of a device is signed in on it. -/
def Client.OwnUploads [Platform] (client : Client) : Prop :=
  ∀ upload ∈ client.uploads ++ client.uploaded,
    ∃ uid, upload.submitter = some uid ∧ client.app.currentUser = some uid

namespace World

variable [Platform] {ι : Type} {w w' : World ι} {c : ι} {a : ClientAction}

/-- Every post is its submitter's, and no completion of an upload has trapped: neither for want
of a session nor for want of a download URL. -/
structure OwnPosts (w : World ι) : Prop where
  attributed : w.Attributed
  located : ∀ c i trap, ((c, .uploadLacksURL i), trap) ∉ w.traps

theorem notMem_of_inFlight (h : (w.clients c).inFlight = 0) (upload : Upload) :
    upload ∉ (w.clients c).uploads ++ (w.clients c).uploaded := by
  rw [Client.inFlight, ← List.length_append, List.length_eq_zero_iff] at h
  simp [h]

theorem newPostWithImage_eq_ok {currentUser : Option Uid} {submission : Submission}
    {u : Upload} (h : MDBSocials.newPostWithImage currentUser submission = .ok u) :
    Platform.pngRepresentation submission.selectedImage ≠ none ∧ u.submitter = currentUser := by
  obtain ⟨data, hdata, hu⟩ := bind_eq_ok.mp h
  obtain rfl := Except.ok.inj hu
  exact ⟨by simp [forceUnwrap_eq_ok.mp hdata], rfl⟩

variable [DecidableEq ι]

theorem step_sessionLoss {revoked : Bool}
    (h : w.step (c, .feed (.sessionLoss revoked)) = some w') :
    w' = w.setApp c ((w.app c).endSession revoked) := by
  obtain rfl := Option.some.inj h
  rfl

theorem currentUser_setApp (w : World ι) (c : ι) (app : App) :
    ((w.setApp c app).app c).currentUser = app.currentUser := by
  simp [setApp]

omit [DecidableEq ι] in
/-- An upload whose submitter is signed in completes in its own session. -/
theorem submitterSignedIn_of_own (h : (w.clients c).OwnUploads) : SubmitterSignedIn w (c, a) := by
  cases a with
  | uploadSucceeds i key =>
      exact fun upload hupload => h upload (List.mem_append_right _ (List.mem_of_getElem? hupload))
  | _ => trivial

end World

namespace UI

variable [Platform] {ι : Type} {u u' : UI ι} {c : ι} {x : ScreenAction}

/-- Without a touch, a session changes only while no upload is on its way; a form is submitted
only in a session; and Storage has a download URL for every picture. -/
def KeepsSubmitter (u : UI ι) : ι × ScreenAction → Prop
  | (c, .device (.feed (.sessionLoss _))) => (u.world.clients c).inFlight = 0
  | (_, .device (.uploadLacksURL _)) => False
  | (c, .device (.feed (.signInReply uid true))) | (c, .device (.accountCreated _ uid)) =>
      (u.world.clients c).inFlight = 0 ∨ (u.world.app c).currentUser = some uid
  | (c, .tappedSubmit) => ∀ n ∈ (u.screens c).newSocial, ∀ submission ∈ n.submission,
      Platform.pngRepresentation submission.selectedImage = none ∨
        (u.world.app c).currentUser ≠ none
  | _ => True

variable [DecidableEq ι]

/-- Spinners cover their uploads, and uploads are their submitters'. -/
structure UploadsInv (u : UI ι) : Prop where
  spinner : ∀ c, SpinnerInv (u.world.clients c) (u.screens c)
  own : ∀ c, (u.world.clients c).OwnUploads
  posts : u.world.OwnPosts

omit [DecidableEq ι] in
theorem uploadsInv_initial : UploadsInv (initial : UI ι) where
  spinner _ := .launched rfl
  own _ := nofun
  posts := ⟨World.attributed_initial, nofun⟩

/-- A session that changes in a guarded step changes while no upload is on its way. -/
theorem UploadsInv.idle_of_session (h : UploadsInv u) (hg : KeepsSubmitter u (c, x))
    {a : ClientAction} {s : Screens} (hcall : Calls u c x a s) {w : World ι}
    (hst : World.Step u.world c a w) :
    (w.app c).currentUser = (u.world.app c).currentUser ∨ (u.world.clients c).inFlight = 0 := by
  rcases hst.session with hsame | ⟨revoked, rfl | rfl, -⟩ | ⟨uid, rfl | ⟨i, rfl⟩, huid, -⟩
  · exact Or.inl hsame
  · -- the log-out button is under the spinner
    refine Or.inr ?_
    cases hcall with
    | device hform => cases hform
    | logOut hfront =>
        simp only [Screens.feedInFront, Bool.and_eq_true] at hfront
        exact (h.spinner c).inFlight_of_touchable hfront.1.1
  · cases hcall with
    | device => exact Or.inr hg
  · cases hcall with
    | device =>
        rcases hg with hidle | hsame
        · exact Or.inr hidle
        · exact Or.inl (huid.trans hsame.symm)
  · cases hcall with
    | device =>
        rcases hg with hidle | hsame
        · exact Or.inr hidle
        · exact Or.inl (huid.trans hsame.symm)

/-- **One step** of a device with its screens keeps every upload in its submitter's session. -/
theorem UploadsInv.step (h : UploadsInv u) (hg : KeepsSubmitter u (c, x)) (hst : Step u c x u') :
    UploadsInv u' := by
  refine ⟨hst.spinnerInv h.spinner, ?_, ?_⟩
  all_goals
    rcases hst.world with hsame | ⟨a, s, hinput, hstep⟩
    · first | exact hsame ▸ h.own | exact hsame ▸ h.posts
  · have hcall := input_calls hinput
    have hcases := World.step_cases hstep
    intro d upload hupload
    by_cases hd : d = c
    · subst hd
      rcases hcases.submissions hupload with hold | ⟨-, rfl, hnew⟩
      · rcases h.idle_of_session hg hcall hcases with hsame | hidle
        · obtain ⟨uid, hsubmitter, huid⟩ := h.own d upload hold
          exact ⟨uid, hsubmitter, hsame.trans huid⟩
        · exact absurd hold (World.notMem_of_inFlight hidle upload)
      · obtain ⟨hpng, hsubmitter⟩ := World.newPostWithImage_eq_ok hnew
        cases hcall with
        | device hform => cases hform
        | tappedSubmit htouch hn hsubmission =>
            obtain ⟨uid, huid⟩ := Option.ne_none_iff_exists'.mp
              ((hg _ hn _ hsubmission).resolve_left hpng)
            refine ⟨uid, hsubmitter.trans huid, ?_⟩
            rcases hcases.session with hsame | ⟨_, heq | heq, -⟩ | ⟨_, heq | ⟨_, heq⟩, -⟩
            · exact hsame.trans huid
            all_goals cases heq
    · rw [hcases.clients_of_ne hd] at hupload ⊢
      exact h.own d upload hupload
  · refine ⟨((World.step_cases hstep).attributed h.posts.attributed).mpr
      (World.submitterSignedIn_of_own (h.own c)), fun d i trap hmem => ?_⟩
    rcases (World.step_cases hstep).mem_traps hmem with hold | ⟨⟨-, rfl⟩, -⟩
    · exact h.posts.located d i trap hold
    · cases input_calls hinput with
      | device => exact hg

/-! ### Uploads without their submitters -/

/-- What happens to a device without a touch happens under its screens. -/
theorem step_device {a : ClientAction} (hform : a.ofForm = false) (htouch : a.isTouch = false)
    {w : World ι} (h : u.world.step (c, a) = some w) :
    ∃ u', machine.step u (c, .device a) = some u' ∧ u'.world = w := by
  obtain ⟨outcome, hperform, rfl⟩ := Option.map_eq_some_iff.mp h
  replace hperform : u.world.perform c a = some outcome := hperform
  have hinput : u.input c (.device a) =
      some (some a, (u.screens c).after (u.world.app c).currentUser a) := by
    simp [input, hform, htouch]
  simp only [machine, step, hinput, Option.bind_some, hperform, Option.map_some, Option.some.injEq,
    exists_eq_left']
  cases outcome <;> rfl

/-- A picture that is stored is there for an upload that has not completed. -/
theorem misattributed_of_uploaded {upload : Upload}
    (hupload : upload ∈ (u.world.clients c).uploaded)
    (hnot : ∀ uid, upload.submitter = some uid → (u.world.app c).currentUser ≠ some uid) :
    ∃ bs v, machine.run u bs = some v ∧ ¬ v.world.OwnPosts := by
  by_cases hattr : u.world.Attributed
  · obtain ⟨i, hi⟩ := List.getElem?_of_mem hupload
    obtain ⟨key, hkey⟩ := World.exists_freshKey u.world
    obtain ⟨w, hw⟩ : ∃ w, u.world.step (c, .uploadSucceeds i key) = some w := by
      simp [World.step, World.perform, hkey, hi]
    obtain ⟨v, hv, rfl⟩ := step_device rfl rfl hw
    refine ⟨[(c, .device (.uploadSucceeds i key))], v,
      Machine.run_cons_eq_some.mpr ⟨v, hv, rfl⟩, fun h => ?_⟩
    obtain ⟨uid, hsubmitter, huid⟩ :=
      ((World.step_cases hw).attributed hattr).mp h.attributed upload hi
    exact hnot uid hsubmitter huid
  · exact ⟨[], u, rfl, fun h => hattr h.attributed⟩

/-- An upload whose submitter is not signed in can complete. -/
theorem misattributed_of_pending {upload : Upload}
    (hupload : upload ∈ (u.world.clients c).uploads ++ (u.world.clients c).uploaded)
    (hnot : ∀ uid, upload.submitter = some uid → (u.world.app c).currentUser ≠ some uid) :
    ∃ bs v, machine.run u bs = some v ∧ ¬ v.world.OwnPosts := by
  rcases List.mem_append.mp hupload with hupload | hupload
  · obtain ⟨i, hi⟩ := List.getElem?_of_mem hupload
    obtain ⟨w, hw⟩ : ∃ w, u.world.step (c, .pictureStored i) = some w := by
      simp [World.step, World.perform, hi]
    obtain ⟨u₁, hu₁, rfl⟩ := step_device rfl rfl hw
    have hstored : upload ∈ (u₁.world.clients c).uploaded ∧
        (u₁.world.app c).currentUser = (u.world.app c).currentUser := by
      generalize u₁.world = w₁ at hw
      cases World.step_cases hw with
      | pictureStored hu =>
          obtain rfl := Option.some.inj (hu.symm.trans hi)
          simp [World.app]
      | trapped htrap => simp [World.perform, hi] at htrap
    obtain ⟨bs, v, hv, hmis⟩ := misattributed_of_uploaded hstored.1
      (fun uid hsubmitter => hstored.2 ▸ hnot uid hsubmitter)
    exact ⟨_, v, Machine.run_cons_eq_some.mpr ⟨u₁, hu₁, hv⟩, hmis⟩
  · exact misattributed_of_uploaded hupload hnot

theorem Step.device {a : ClientAction} (hst : Step u c (.device a) u') :
    u.world.step (c, a) = some u'.world := by
  cases hst with
  | quiet hinput =>
      obtain ⟨-, hinput⟩ := Option.ite_none_left_eq_some.mp hinput
      cases hinput
  | calls hinput hok =>
      cases input_calls hinput with
      | device => simp only [World.step, hok, Option.map_some, setScreens]
  | traps hinput herror =>
      cases input_calls hinput with
      | device => simp only [World.step, herror, Option.map_some, setScreens]

omit [DecidableEq ι] in
/-- An upload on its way loses its submitter with the session. -/
theorem UploadsInv.orphan_of_session (h : UploadsInv u) {w : World ι}
    (huploads : (w.clients c).uploads = (u.world.clients c).uploads)
    (huploaded : (w.clients c).uploaded = (u.world.clients c).uploaded)
    (hflight : (u.world.clients c).inFlight ≠ 0)
    (hsession : (w.app c).currentUser ≠ (u.world.app c).currentUser ∨
      (w.app c).currentUser = none) :
    ∃ upload, upload ∈ (w.clients c).uploads ++ (w.clients c).uploaded ∧
      ∀ uid, upload.submitter = some uid → (w.app c).currentUser ≠ some uid := by
  rw [Client.inFlight, ← List.length_append] at hflight
  obtain ⟨upload, hupload⟩ := List.exists_mem_of_length_pos (Nat.pos_of_ne_zero hflight)
  refine ⟨upload, by rwa [huploads, huploaded], fun uid hsubmitter huid => ?_⟩
  obtain ⟨uid', hsubmitter', huid'⟩ := h.own c upload hupload
  obtain rfl := Option.some.inj (hsubmitter.symm.trans hsubmitter')
  rcases hsession with hsession | hsession
  · exact hsession (huid.trans huid'.symm)
  · cases hsession.symm.trans huid

/-- The completion of an upload without a download URL traps. -/
theorem not_ownPosts_of_lacksURL {i : ℕ} (hst : Step u c (.device (.uploadLacksURL i)) u') :
    ¬ u'.world.OwnPosts := by
  intro h
  have hst := hst.device
  generalize u'.world = w at h hst
  cases World.step_cases hst with
  | trapped => exact h.located c i _ List.mem_cons_self

/-- **A step that breaks the condition** leaves an upload without its submitter, unless it
traps. -/
theorem UploadsInv.exists_orphan (h : UploadsInv u) (hg : ¬ KeepsSubmitter u (c, x))
    (hst : Step u c x u') (hposts : u'.world.OwnPosts) : ∃ upload,
      upload ∈ (u'.world.clients c).uploads ++ (u'.world.clients c).uploaded ∧
      ∀ uid, upload.submitter = some uid → (u'.world.app c).currentUser ≠ some uid := by
  dsimp only [KeepsSubmitter] at hg
  split at hg
  · -- the session ends by itself
    rename_i d revoked heq
    obtain ⟨rfl, rfl⟩ := Prod.mk.inj heq
    rw [World.step_sessionLoss hst.device]
    refine h.orphan_of_session ?_ ?_ hg (Or.inr ?_)
    · simp [World.setApp]
    · simp [World.setApp]
    · rw [World.currentUser_setApp]
      exact (App.endSession_frame _ revoked).2.2.2.2.1
  · rename_i d i heq
    obtain ⟨rfl, rfl⟩ := Prod.mk.inj heq
    exact absurd hposts (not_ownPosts_of_lacksURL hst)
  · -- a sign-in completes
    rename_i d uid heq
    obtain ⟨rfl, rfl⟩ := Prod.mk.inj heq
    rw [World.step_signInReply hst.device]
    refine h.orphan_of_session ?_ ?_ (fun hidle => hg (Or.inl hidle)) (Or.inl ?_)
    · simp [World.setApp]
    · simp [World.setApp]
    · rw [World.currentUser_setApp]
      exact fun hsame => hg (Or.inr hsame.symm)
  · -- an account is made
    rename_i d i uid heq
    obtain ⟨rfl, rfl⟩ := Prod.mk.inj heq
    obtain ⟨-, user, -, hw⟩ := World.step_accountCreated hst.device
    rw [hw]
    refine h.orphan_of_session ?_ ?_ (fun hidle => hg (Or.inl hidle)) (Or.inl ?_)
    · simp
    · simp
    · exact fun hsame => hg (Or.inr (by simpa [App.userCreated] using hsame.symm))
  · -- nobody is signed in when the form is submitted
    rename_i d heq
    obtain ⟨rfl, rfl⟩ := Prod.mk.inj heq
    simp only [not_forall, not_or, not_not] at hg
    obtain ⟨n, hn, submission, hsubmission, hpng, hnone⟩ := hg
    obtain ⟨data, hdata⟩ := Option.ne_none_iff_exists'.mp hpng
    have hupload : MDBSocials.newPostWithImage (u.world.app c).currentUser submission =
        .ok ⟨submission, data, (u.world.app c).currentUser⟩ :=
      bind_eq_ok.mpr ⟨data, forceUnwrap_eq_ok.mpr hdata, rfl⟩
    cases hst with
    | quiet hinput =>
        obtain ⟨-, hinput⟩ := Option.ite_none_right_eq_some.mp hinput
        rw [Option.mem_def.mp hn, Option.map_some, Option.mem_def.mp hsubmission] at hinput
        cases hinput
    | calls hinput hok =>
        cases input_calls hinput with
        | tappedSubmit htouch hn' hsubmission' =>
            obtain rfl := Option.some.inj (hn.symm.trans hn')
            obtain rfl := Option.some.inj (hsubmission.symm.trans hsubmission')
            simp only [World.perform, hupload, Except.map, Option.some.injEq, Except.ok.injEq]
              at hok
            refine ⟨⟨submission, data, (u.world.app c).currentUser⟩, ?_, fun uid huid => ?_⟩
            · simp [← hok, setScreens]
            · cases hnone.symm.trans huid
    | traps hinput herror =>
        cases input_calls hinput with
        | tappedSubmit htouch hn' hsubmission' =>
            obtain rfl := Option.some.inj (hn.symm.trans hn')
            obtain rfl := Option.some.inj (hsubmission.symm.trans hsubmission')
            simp [World.perform, hupload, Except.map] at herror
  · exact absurd trivial hg

/-- **Posts and their submitters.** In every run of any number of devices with their screens,
every post carries the id of the user who submitted its form and no completion of an upload
traps, as long as no session ends or begins without a touch while an upload is on its way, no
form is submitted without a session, and Storage has a download URL for every picture. Nothing
else is needed: the spinner keeps users from logging out meanwhile. A step that breaks the
condition can be followed by a post of another user, or by a trap. -/
theorem own_posts : machine.ExactGuard (initial : UI ι) KeepsSubmitter
    fun u => u.world.OwnPosts where
  safe as u hrun hg := by
    have hinv : UploadsInv u := hg.run_invariant
      (fun _ _ _ h ha hst => h.step ha (step_cases hst)) uploadsInv_initial hrun
    exact hinv.posts
  sharp as u a u' hrun hg hst hbreak := by
    have hinv : UploadsInv u := hg.run_invariant
      (fun _ _ _ h ha hst => h.step ha (step_cases hst)) uploadsInv_initial hrun
    by_cases hposts : u'.world.OwnPosts
    · obtain ⟨upload, hupload, hnot⟩ := hinv.exists_orphan hbreak (step_cases hst) hposts
      exact misattributed_of_pending hupload hnot
    · exact ⟨[], u', rfl, hposts⟩

end UI

/-! ### The login screen -/

namespace Screens

variable [Platform] {s : Screens}

@[simp] theorem login_presentAlert (s : Screens) (a : Alert) :
    (s.presentAlert a).login = s.login := by
  rw [presentAlert]
  split <;> rfl

@[simp] theorem login_dismissNewSocial (s : Screens) : s.dismissNewSocial.login = s.login := by
  rw [dismissNewSocial]
  split
  · rfl
  · split <;> rfl

theorem login_showLogin_of_isSome (h : s.login.isSome) : s.showLogin.login.isSome := by
  rw [showLogin]
  split <;> first | rfl | exact h

theorem login_showLogin (hnew : s.newSocial = none) (halert : s.alert = none) :
    s.showLogin.login.isSome := by
  rw [showLogin]
  split
  · rfl
  · rename_i hpresented
    simpa [hnew, halert, ← Option.isSome_iff_ne_none] using hpresented

end Screens

namespace UI

variable [Platform] {ι : Type} {u u' : UI ι} {c : ι} {x : ScreenAction}

/-- A device on which nobody is signed in has its login screen over the feed. -/
def Gated (c : ι) (u : UI ι) : Prop := (u.world.app c).currentUser = none →
  (u.screens c).login.isSome ∧ (u.screens c).newSocial = none ∧ (u.screens c).feedInFront = false

theorem gated_iff (h : SpinnerInv (u.world.clients c) (u.screens c)) :
    u.Gated c ↔ ((u.world.app c).currentUser = none → (u.screens c).login.isSome) := by
  refine ⟨fun hg hnone => (hg hnone).1, fun hg hnone => ?_⟩
  have hlogin := hg hnone
  refine ⟨hlogin, ?_, ?_⟩
  · by_contra hnew
    simp [h.modal (Option.isSome_iff_ne_none.mpr hnew)] at hlogin
  · simp [Screens.feedInFront, Option.isNone_eq_false_iff.mpr hlogin]

variable [DecidableEq ι]

/-- No handler traps in the action. -/
def returns (u : UI ι) (c : ι) (x : ScreenAction) : Bool :=
  (u.input c x).all fun p => p.1.all fun a => (u.world.perform c a).all Except.isOk

/-- A session ends by itself only under the login screen, and a process only in a session. -/
def KeepsGate (c : ι) (u : UI ι) (a : ι × ScreenAction) : Prop :=
  a.1 = c → match a.2 with
    | .device (.feed (.sessionLoss _)) => (u.screens c).login.isSome
    | .device .terminate => (u.world.app c).currentUser ≠ none
    | x => (u.world.app c).currentUser = none → u.returns c x

instance (c : ι) (u : UI ι) (a : ι × ScreenAction) : Decidable (KeepsGate c u a) := by
  obtain ⟨d, x⟩ := a
  rcases x
  case device b =>
      rcases b
      case feed b =>
          rcases b <;> dsimp only [KeepsGate] <;> infer_instance
      all_goals
        dsimp only [KeepsGate]
        infer_instance
  all_goals
    dsimp only [KeepsGate]
    infer_instance

/-- The completions of a device leave its login screen, unless they begin or need a session. -/
theorem login_after {a : ClientAction} {w : World ι}
    (hok : u.world.perform c a = some (.ok w)) (hterminate : a ≠ .terminate)
    (hnone : (w.app c).currentUser = none) (user : Option Uid)
    (hlogin : (u.screens c).login.isSome) :
    ((u.screens c).after user a).login.isSome := by
  have hstep : u.world.step (c, a) = some w := by simp only [World.step, hok, Option.map_some]
  cases a with
  | terminate => exact absurd rfl hterminate
  | feed b =>
      cases b with
      | viewWillAppear =>
          simp only [Screens.after]
          split
          · exact Screens.login_showLogin_of_isSome hlogin
          · exact hlogin
      | signInReply uid succeeded =>
          simp only [Screens.after]
          split
          · exact hlogin
          · split
            · -- somebody is signed in
              rename_i hsucceeded
              rw [World.step_signInReply hstep, World.currentUser_setApp, hsucceeded] at hnone
              cases hnone
            · split
              · exact hlogin
              · simpa using hlogin
      | _ => exact hlogin
  | signUpSucceeds i =>
      -- the record is of whoever is signed in
      cases World.step_cases hstep with
      | trapped htrap => cases hok.symm.trans htrap
      | signUpSucceeds hu huid =>
          have hsame : (u.world.app c).currentUser = none := by
            simpa [World.issue, World.refresh, World.setApp, World.app, App.viewChanged] using hnone
          cases hsame.symm.trans huid
  | signUpFails i =>
      simp only [Screens.after]
      split
      · simpa using hlogin
      · exact hlogin
  | uploadSucceeds i key =>
      simp only [Screens.after]
      simpa using hlogin
  | _ => exact hlogin

omit [DecidableEq ι] in
/-- No touch that calls nothing takes the login screen away. -/
theorem login_of_quiet {s : Screens} (hinput : u.input c x = some (none, s))
    (hlogin : (u.screens c).login.isSome) : s.login.isSome := by
  cases x with
  | device a =>
      obtain ⟨-, hinput⟩ := Option.ite_none_left_eq_some.mp hinput
      cases hinput
  | typedLogin =>
      obtain ⟨l, -, hinput⟩ := Option.map_eq_some_iff.mp hinput
      obtain ⟨-, rfl⟩ := Prod.mk.inj hinput
      rfl
  | typedSignup | typedEvent =>
      obtain ⟨y, -, hinput⟩ := Option.map_eq_some_iff.mp hinput
      obtain ⟨-, rfl⟩ := Prod.mk.inj hinput
      exact hlogin
  | pickedDate =>
      obtain ⟨-, hinput⟩ := Option.ite_none_right_eq_some.mp hinput
      obtain ⟨n, -, hinput⟩ := Option.map_eq_some_iff.mp hinput
      obtain ⟨-, rfl⟩ := Prod.mk.inj hinput
      exact hlogin
  | selectPicture | didCancelPicking | tappedDismiss | tappedSignUp | tappedBackButton | newPost
  | cancelNewPost | spinnerBlock | spinnerFaded =>
      obtain ⟨-, hinput⟩ := Option.ite_none_right_eq_some.mp hinput
      obtain ⟨-, rfl⟩ := Prod.mk.inj (Option.some.inj hinput)
      simpa using hlogin
  | didFinishPickingMedia image =>
      obtain ⟨-, hinput⟩ := Option.ite_none_right_eq_some.mp hinput
      obtain ⟨-, rfl⟩ := Prod.mk.inj (Option.some.inj hinput)
      simpa [Screens.didFinishPickingMedia] using hlogin
  | tappedLogin =>
      obtain ⟨-, hinput⟩ := Option.ite_none_right_eq_some.mp hinput
      obtain ⟨l, -, hinput⟩ := Option.map_eq_some_iff.mp hinput
      obtain ⟨-, rfl⟩ := Prod.mk.inj hinput
      exact hlogin
  | tappedCreateAccount | tappedSubmit =>
      obtain ⟨-, hinput⟩ := Option.ite_none_right_eq_some.mp hinput
      obtain ⟨f, -, hinput⟩ := Option.map_eq_some_iff.mp hinput
      split at hinput
      · cases hinput
      · obtain ⟨-, rfl⟩ := Prod.mk.inj hinput
        simpa using hlogin
  | logOut =>
      obtain ⟨-, hinput⟩ := Option.ite_none_right_eq_some.mp hinput
      cases hinput

/-- Apart from the end of a session or of the process, only traps matter. -/
theorem keepsGate_iff (hloss : ∀ revoked, x ≠ .device (.feed (.sessionLoss revoked)))
    (hterminate : x ≠ .device .terminate) : u.KeepsGate c (c, x) ↔
      ((u.world.app c).currentUser = none → u.returns c x = true) := by
  rw [KeepsGate, forall_prop_of_true rfl]
  dsimp only
  split
  · exact absurd rfl (hloss _)
  · exact absurd rfl hterminate
  · exact Iff.rfl

/-- **A call** leads to the login screen, or a session, exactly when it meets the
condition. -/
theorem gated_of_calls {a : ClientAction} {s : Screens} (hinput : u.input c x = some (some a, s))
    {w : World ι} (hok : u.world.perform c a = some (.ok w))
    (hgated : (u.world.app c).currentUser = none → (u.screens c).login.isSome) :
    ((w.app c).currentUser = none → s.login.isSome) ↔ u.KeepsGate c (c, x) := by
  have hstep : u.world.step (c, a) = some w := by simp only [World.step, hok, Option.map_some]
  have hreturns : u.returns c x = true := by simp [returns, hinput, hok, Except.isOk, Except.toBool]
  have hsession := (World.step_cases hstep).session
  by_cases hloss : ∃ revoked, x = .device (.feed (.sessionLoss revoked))
  · obtain ⟨revoked, rfl⟩ := hloss
    cases input_calls hinput with
    | device =>
        have hnone : (w.app c).currentUser = none := by
          rw [World.step_sessionLoss hstep, World.currentUser_setApp]
          exact (App.endSession_frame _ revoked).2.2.2.2.1
        exact ⟨fun h _ => h hnone, fun h _ => h rfl⟩
  by_cases hterminate : x = .device .terminate
  · subst hterminate
    cases input_calls hinput with
    | device =>
        have hsame : (w.app c).currentUser = (u.world.app c).currentUser := by
          rcases hsession with hsame | ⟨_, heq | heq, -⟩ | ⟨_, heq | ⟨_, heq⟩, -⟩
          · exact hsame
          all_goals cases heq
        -- the new process has no login screen yet
        refine ⟨fun h _ hnone => ?_, fun h hnone => absurd (hsame.symm.trans hnone) (h rfl)⟩
        cases h (hsame.trans hnone)
  refine iff_of_true (fun hnone => ?_)
    ((keepsGate_iff (fun revoked heq => hloss ⟨revoked, heq⟩) hterminate).mpr fun _ => hreturns)
  have hbefore : (∀ revoked, a ≠ .feed (.logOut true revoked)) →
      (u.screens c).login.isSome := by
    intro hlogOut
    rcases hsession with hsame | ⟨revoked, rfl | rfl, -⟩ | ⟨uid, -, huid, -⟩
    · exact hgated (hsame.symm.trans hnone)
    · exact absurd rfl (hlogOut revoked)
    · cases input_calls hinput with
      | device => exact absurd ⟨revoked, rfl⟩ hloss
    · cases hnone.symm.trans huid
  cases input_calls hinput with
  | device hform =>
      refine login_after hok (fun heq => hterminate (heq ▸ rfl)) hnone _ (hbefore ?_)
      rintro revoked rfl
      cases hform
  | logOut hfront =>
      simp only [Screens.feedInFront, Screens.touchable, Bool.and_eq_true,
        Option.isNone_iff_eq_none] at hfront
      exact Screens.login_showLogin hfront.2 hfront.1.1.1.2
  | tappedLogin | tappedCreateAccount | tappedSubmit => exact hbefore (by simp)
  | logOutFails => simpa using hbefore (by simp)

/-- **One step** of any device leads to the login screen of another or the same, or a session
there, exactly when it meets the condition. -/
theorem Step.gated {d : ι} (hst : Step u d x u')
    (h : ∀ c, SpinnerInv (u.world.clients c) (u.screens c)) (hgated : u.Gated c) :
    u'.Gated c ↔ u.KeepsGate c (d, x) := by
  rw [gated_iff (hst.spinnerInv h c)]
  have hold := (gated_iff (h c)).mp hgated
  by_cases hd : d = c
  · subst hd
    cases hst with
    | quiet hinput =>
        have hdevice : ∀ a, x ≠ .device a := by
          rintro a rfl
          obtain ⟨-, hinput⟩ := Option.ite_none_left_eq_some.mp hinput
          cases hinput
        refine iff_of_true (fun hnone => ?_)
          ((keepsGate_iff (fun _ => hdevice _) (hdevice _)).mpr fun _ => by simp [returns, hinput])
        simpa [setScreens] using login_of_quiet hinput (hold hnone)
    | calls hinput hok =>
        simpa [setScreens] using gated_of_calls hinput hok hold
    | @traps a s trap hinput herror =>
        have hreturns : u.returns d x = false := by
          simp [returns, hinput, herror, Except.isOk, Except.toBool]
        have hsame : ((u.world.trapped d a trap).app d).currentUser =
            (u.world.app d).currentUser := by
          simp [World.trapped, World.terminate, World.app, App.launch]
        have hother : ∀ b, x = .device b → u.world.perform d b = some (.error trap) := by
          rintro b rfl
          cases input_calls hinput with
          | device => exact herror
        rw [keepsGate_iff (fun revoked heq => by cases hother _ heq)
          (fun heq => by cases hother _ heq), hreturns]
        simp only [setScreens, Function.update_self]
        rw [hsame]
        exact Iff.rfl
  · obtain ⟨hscreens, hclient⟩ := hst.of_ne (Ne.symm hd)
    refine iff_of_true ?_ fun heq => absurd heq hd
    rw [hscreens, World.app, hclient]
    exact hold

/-- **The login gate.** Once the feed has appeared on a device, with nothing presented over
it but the login screen, nobody gets past that screen without being signed in, exactly as long
as no session ends by itself elsewhere than under it, and no process ends without a session to
be launched with. -/
theorem login_gate {as bs : List (ι × ScreenAction)} {u₁ : UI ι}
    (hrun : machine.run initial as = some u) (hnew : (u.screens c).newSocial = none)
    (halert : (u.screens c).alert = none)
    (happears : machine.step u (c, .device (.feed .viewWillAppear)) = some u₁)
    (hrun' : machine.run u₁ bs = some u') :
    machine.Always (Gated c) u₁ bs ↔ machine.Guarded (KeepsGate c) u₁ bs := by
  have hspinner : ∀ d, SpinnerInv (u.world.clients d) (u.screens d) := spinnerInv_of_run hrun
  have hst : Step u c (.device (.feed .viewWillAppear)) u₁ := step_cases happears
  have hspinner₁ := hst.spinnerInv hspinner
  have hgated : u₁.Gated c := by
    rw [gated_iff (hspinner₁ c)]
    intro hnone
    have hbefore : (u.world.app c).currentUser = none := by
      rcases (World.step_cases hst.device).session with
        hsame | ⟨_, heq | heq, -⟩ | ⟨_, heq | ⟨_, heq⟩, -⟩
      · exact hsame.symm.trans hnone
      all_goals cases heq
    cases hst with
    | quiet hinput => cases hinput
    | calls hinput hok =>
        cases input_calls hinput with
        | device =>
            simpa [setScreens, Screens.after, hbefore] using Screens.login_showLogin hnew halert
    | traps hinput herror =>
        cases input_calls hinput with
        | device => cases herror
  exact Machine.always_iff_guarded (A := fun _ => True)
    (I := fun u : UI ι => ∀ d, SpinnerInv (u.world.clients d) (u.screens d)) (P := Gated c)
    (fun _ _ _ _ h hst => (step_cases hst).spinnerInv h)
    (fun _ _ _ _ h hgated hst => (step_cases hst).gated h hgated) hspinner₁ hgated
    (fun _ _ => trivial) hrun'

end UI

/-! ### Signing up at the gate -/

namespace UI

attribute [local instance] Platform.reference

theorem login_gate_submitted : ∃ u₁ u' : UI ℕ,
    machine.step initial (0, .device (.feed .viewWillAppear)) = some u₁ ∧
    machine.run u₁ annSubmits.tail = some u' ∧ machine.Always (Gated 0) u₁ annSubmits.tail := by
  have hrun : (machine.run (initial : UI ℕ) annSubmits).isSome = true := by decide
  obtain ⟨u', hu'⟩ := Option.isSome_iff_exists.mp hrun
  obtain ⟨u₁, hu₁, hrun'⟩ := Machine.run_cons_eq_some.mp hu'
  have hguarded : machine.Guarded (KeepsGate 0) (initial : UI ℕ) annSubmits := by decide
  exact ⟨u₁, u', hu₁, hrun',
    (login_gate (Machine.run_nil _ _) rfl rfl hu₁ hrun').mpr (hguarded.2 u₁ hu₁)⟩

end UI

end MDBSocials
