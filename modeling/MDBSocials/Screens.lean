import MDBSocials.ReferencePlatform
import MDBSocials.World

/-!
# The Forms of a Device

The screens on which users type: `LoginViewController`, `SignupViewController` and
`NewSocialViewController`, with the alerts over them and the `MKFullSpinner` that covers the
window during an upload. Three of the calls a device makes (`logIn`, `signUp` and
`newPostWithImage`) come from these forms and from nowhere else, so that the runs of
`UI.machine` are runs of the world whose calls went through the checks of a form.

The spinner's `hitTest` returns the spinner for every touch. It is taken off the window in
two steps after `hide()`: a block on the main queue, and the end of the animation which that
block starts.

## Main results

* `UI.Step.world`: a step of a device with its screens is a step of the world, or none.
* `UI.input_calls`: everything that the screens call.
* `one_upload`: the spinner is on the window as long as an upload is on its way or the
  spinner is being hidden, and there is never more than one of them.
-/

namespace MDBSocials

/-! ### Screens -/

/-- A `UIAlertController` with its `Dismiss` button. -/
structure Alert where
  title : String
  message : String
  deriving DecidableEq, Repr

/-- `UITextField.hasText`. -/
def hasText (field : String) : Bool := field ≠ ""

structure LoginViewController where
  emailField : String := ""
  passwordField : String := ""
  deriving DecidableEq, Repr

structure SignupViewController where
  fullNameField : String := ""
  usernameField : String := ""
  emailField : String := ""
  passwordField : String := ""
  deriving DecidableEq, Repr

/-- The state of the `MKFullSpinner`: whether it has a superview, and the blocks and
animations of `hide()` that have not run to their end. -/
structure MKFullSpinner where
  superview : Bool := false
  title : String := ""
  animating : Bool := false
  blocks : ℕ := 0
  fading : ℕ := 0
  deriving DecidableEq, Repr

namespace MKFullSpinner

/-- `MKFullSpinner.show`. -/
def «show» (s : MKFullSpinner) (title : String) (animated : Bool) : MKFullSpinner :=
  { s with superview := true, title, animating := animated }

/-- `MKFullSpinner.hide`, up to the block it dispatches. -/
def hide (s : MKFullSpinner) : MKFullSpinner := { s with blocks := s.blocks + 1 }

/-- The block of `hide`. -/
def hideBlock (s : MKFullSpinner) : MKFullSpinner :=
  let s := { s with blocks := s.blocks - 1 }
  if s.superview then { s with fading := s.fading + 1, animating := false } else s

/-- The completion of the animation of `hide`. -/
def faded (s : MKFullSpinner) : MKFullSpinner :=
  { s with fading := s.fading - 1, superview := false }

end MKFullSpinner

section Forms

variable [Platform]

structure NewSocialViewController where
  eventNameField : String := ""
  eventDescriptionField : String := ""
  selectedImage : Option UIImage := none
  datePicker : Platform.Date

/-- What the feed has presented on a device. `signup` is on the navigation stack of
`login`. -/
structure Screens where
  login : Option LoginViewController := none
  signup : Option SignupViewController := none
  newSocial : Option NewSocialViewController := none
  alert : Option Alert := none
  imagePicker : Bool := false
  spinner : MKFullSpinner := {}

/-- What happens on the screens of a device. `device` is everything else that happens to
it. -/
inductive ScreenAction
  | device (a : ClientAction)
  | typedLogin (email password : String)
  | typedSignup (fullName username email password : String)
  | typedEvent (name description : String)
  | pickedDate (date : Platform.Date)
  | selectPicture
  | didFinishPickingMedia (image : UIImage)
  | didCancelPicking
  | tappedDismiss
  | tappedLogin (uid : Uid)
  | tappedSignUp
  | tappedCreateAccount
  | tappedBackButton
  | newPost (date : Platform.Date)
  | cancelNewPost
  | tappedSubmit
  | logOut (signOutError : Option String) (revoked : Bool)
  | spinnerBlock
  | spinnerFaded

/-! ### Handlers -/

/-- The submission of `NewSocialViewController.newPost`, `none` when something is missing. -/
def NewSocialViewController.submission (n : NewSocialViewController) : Option Submission :=
  if hasText n.eventNameField && hasText n.eventDescriptionField then
    n.selectedImage.map fun selectedImage =>
      { selectedImage, name := n.eventNameField, description := n.eventDescriptionField,
        date := n.datePicker }
  else none

omit [Platform] in
/-- The account of `tappedCreateAccount`, `none` when something is missing. -/
def SignupViewController.newUser (s : SignupViewController) : Option NewUser :=
  if hasText s.fullNameField && hasText s.usernameField && hasText s.emailField &&
      hasText s.passwordField then
    some { name := s.fullNameField, username := s.usernameField, email := s.emailField }
  else none

namespace Screens

/-- Touches reach the screen that is in front. -/
def touchable (s : Screens) : Bool :=
  !s.spinner.superview && s.alert.isNone && !s.imagePicker

/-- `present` of an alert, which does nothing when something is presented already. -/
def presentAlert (s : Screens) (a : Alert) : Screens :=
  if s.alert.isNone && !s.imagePicker then { s with alert := some a } else s

/-- The alert about missing fields. -/
def fieldsBlank : Alert :=
  ⟨"Fields Blank", "Make sure you enter all required information."⟩

/-- `performSegue("showLogin")` from the feed, when nothing is presented there. -/
def showLogin (s : Screens) : Screens :=
  if s.login.isNone && s.newSocial.isNone && s.alert.isNone then { s with login := some {} }
  else s

/-- `dismiss` of the login screen or a screen on its stack. It dismisses what these have
presented, if they have. -/
def dismissLogin (s : Screens) : Screens :=
  if s.alert.isSome then { s with alert := none } else { s with login := none, signup := none }

/-- `dismiss` of the new-post screen. -/
def dismissNewSocial (s : Screens) : Screens :=
  if s.imagePicker then { s with imagePicker := false }
  else if s.alert.isSome then { s with alert := none }
  else { s with newSocial := none }

/-- `imagePickerController(_:didFinishPickingMediaWithInfo:)`. -/
def didFinishPickingMedia (s : Screens) (image : UIImage) : Screens :=
  let newSocial := s.newSocial.map fun n => { n with selectedImage := some image }
  { s with newSocial }.dismissNewSocial

/-- What the completions of a device do to its screens. An alert is presented by the screen
that made the request, if it is in the window. -/
def after (s : Screens) (currentUser : Option Uid) : ClientAction → Screens
  | .feed .viewWillAppear => if currentUser = none then s.showLogin else s
  | .feed (.signInReply _ succeeded) =>
      if s.login.isNone then s
      else if succeeded then s.dismissLogin
      else if s.signup.isSome then s
      else s.presentAlert ⟨"Log In Error",
        "Looks like that user doesnt exist! Try creating an account."⟩
  | .signUpSucceeds _ => if s.signup.isSome then s.dismissLogin else s
  | .signUpFails _ =>
      if s.signup.isSome then s.presentAlert ⟨"Sign Up Error",
        "Sorry there was an error creating your account. Try again later."⟩
      else s
  | .uploadSucceeds _ _ => { s with spinner := s.spinner.hide }.dismissNewSocial
  | .uploadFails _ | .uploadReplyLost _ => { s with spinner := s.spinner.hide }
  | .terminate => {}
  | _ => s

/-- The feed or a screen pushed on it is in front. -/
def feedInFront (s : Screens) : Bool := s.touchable && s.login.isNone && s.newSocial.isNone

end Screens

end Forms

/-- The calls and actions that only a handler of `ScreenAction` makes. -/
def ClientAction.ofForm [Platform] : ClientAction → Bool
  | .newPostWithImage _ | .signUp _ | .feed (.tappedLogin _) | .feed (.logOut _ _) => true
  | _ => false

/-- The touches of the feed and the detail screen. -/
def ClientAction.isTouch [Platform] : ClientAction → Bool
  | .feed (.didSelectRowAt _) | .tappedInterested _ => true
  | _ => false

/-- All devices and the server, and what each device has on its screen. -/
structure UI [Platform] (ι : Type) where
  world : World ι
  screens : ι → Screens

namespace UI

variable [Platform] {ι : Type}

def initial : UI ι := ⟨.initial, fun _ => {}⟩

variable [DecidableEq ι]

/-- What an action of a screen calls, and the screens after it. `none` when it cannot
happen: a touch is taken by what is in front. -/
def input (u : UI ι) (c : ι) : ScreenAction → Option (Option ClientAction × Screens)
  | .device a =>
      if a.ofForm || (a.isTouch && !(u.screens c).feedInFront) then none
      else some (some a, (u.screens c).after (u.world.app c).currentUser a)
  | .typedLogin emailField passwordField => (u.screens c).login.map fun _ =>
      (none, { u.screens c with login := some { emailField, passwordField } })
  | .typedSignup fullNameField usernameField emailField passwordField =>
      (u.screens c).signup.map fun _ => (none, { u.screens c with
        signup := some { fullNameField, usernameField, emailField, passwordField } })
  | .typedEvent eventNameField eventDescriptionField => (u.screens c).newSocial.map fun n =>
      (none, { u.screens c with
        newSocial := some { n with eventNameField, eventDescriptionField } })
  | .pickedDate datePicker => if (u.screens c).touchable then (u.screens c).newSocial.map fun n =>
        (none, { u.screens c with newSocial := some { n with datePicker } })
      else none
  | .selectPicture =>
      if (u.screens c).touchable && (u.screens c).newSocial.isSome then
        some (none, { u.screens c with imagePicker := true })
      else none
  | .didFinishPickingMedia image =>
      if (u.screens c).imagePicker && !(u.screens c).spinner.superview then
        some (none, (u.screens c).didFinishPickingMedia image)
      else none
  | .didCancelPicking =>
      if (u.screens c).imagePicker && !(u.screens c).spinner.superview then
        some (none, (u.screens c).dismissNewSocial)
      else none
  | .tappedDismiss =>
      if (u.screens c).alert.isSome && !(u.screens c).spinner.superview then
        some (none, { u.screens c with alert := none })
      else none
  | .tappedLogin uid =>
      if (u.screens c).touchable && (u.screens c).signup.isNone then
        (u.screens c).login.map fun l =>
          (if hasText l.emailField && hasText l.passwordField then some (.feed (.tappedLogin uid))
            else none, u.screens c)
      else none
  | .tappedSignUp =>
      if (u.screens c).touchable && (u.screens c).login.isSome && (u.screens c).signup.isNone then
        some (none, { u.screens c with signup := some {} })
      else none
  | .tappedCreateAccount => if (u.screens c).touchable then (u.screens c).signup.map fun f =>
        match f.newUser with
        | some user => (some (.signUp user), u.screens c)
        | none => (none, (u.screens c).presentAlert Screens.fieldsBlank)
      else none
  | .tappedBackButton =>
      if (u.screens c).touchable && (u.screens c).signup.isSome then
        some (none, { u.screens c with signup := none })
      else none
  | .newPost datePicker =>
      if (u.screens c).feedInFront then
        some (none, { u.screens c with newSocial := some { datePicker } })
      else none
  | .cancelNewPost =>
      if (u.screens c).touchable && (u.screens c).newSocial.isSome then
        some (none, (u.screens c).dismissNewSocial)
      else none
  | .tappedSubmit => if (u.screens c).touchable then (u.screens c).newSocial.map fun n =>
        match n.submission with
        | some submission => (some (.newPostWithImage submission), { u.screens c with
            spinner := (u.screens c).spinner.show "Uploading Post" true })
        | none => (none, (u.screens c).presentAlert Screens.fieldsBlank)
      else none
  | .logOut signOutError revoked =>
      if (u.screens c).feedInFront then
        some (some (.feed (.logOut signOutError.isNone revoked)),
          match signOutError with
          | none => (u.screens c).showLogin
          | some debugDescription =>
              (u.screens c).presentAlert ⟨"Error Logging Out", debugDescription⟩)
      else none
  | .spinnerBlock =>
      if 0 < (u.screens c).spinner.blocks then
        some (none, { u.screens c with spinner := (u.screens c).spinner.hideBlock })
      else none
  | .spinnerFaded =>
      if 0 < (u.screens c).spinner.fading then
        some (none, { u.screens c with spinner := (u.screens c).spinner.faded })
      else none

/-- A device's screens are replaced. -/
def setScreens (u : UI ι) (c : ι) (s : Screens) : UI ι :=
  { u with screens := Function.update u.screens c s }

/-- The state after an action of a device. A new process starts with the feed alone. -/
def step (u : UI ι) (x : ι × ScreenAction) : Option (UI ι) :=
  (u.input x.1 x.2).bind fun
    | (none, s) => some (u.setScreens x.1 s)
    | (some a, s) => (u.world.perform x.1 a).map fun
        | .ok w => { u with world := w }.setScreens x.1 s
        | .error trap => { u with world := u.world.trapped x.1 a trap }.setScreens x.1 {}

/-- The runs of all devices with their screens. -/
def machine : Machine (UI ι) (ι × ScreenAction) where
  step := step

/-! ### Everything a step can do -/

/-- The steps of a device with its screens. -/
inductive Step (u : UI ι) (c : ι) (x : ScreenAction) : UI ι → Prop
  | quiet {s : Screens} (hinput : u.input c x = some (none, s)) : Step u c x (u.setScreens c s)
  | calls {a : ClientAction} {s : Screens} {w : World ι} (hinput : u.input c x = some (some a, s))
      (hok : u.world.perform c a = some (.ok w)) :
      Step u c x ({ u with world := w }.setScreens c s)
  | traps {a : ClientAction} {s : Screens} {trap : Trap}
      (hinput : u.input c x = some (some a, s))
      (herror : u.world.perform c a = some (.error trap)) :
      Step u c x ({ u with world := u.world.trapped c a trap }.setScreens c {})

/-- What the handlers of the screens call, with the screens after it. -/
inductive Calls (u : UI ι) (c : ι) : ScreenAction → ClientAction → Screens → Prop
  | device {a : ClientAction} (hform : a.ofForm = false) :
      Calls u c (.device a) a ((u.screens c).after (u.world.app c).currentUser a)
  | tappedLogin {uid : Uid} {l : LoginViewController} (htouch : (u.screens c).touchable = true)
      (hl : (u.screens c).login = some l) :
      Calls u c (.tappedLogin uid) (.feed (.tappedLogin uid)) (u.screens c)
  | tappedCreateAccount {f : SignupViewController} {user : NewUser}
      (htouch : (u.screens c).touchable = true) (hf : (u.screens c).signup = some f)
      (huser : f.newUser = some user) :
      Calls u c .tappedCreateAccount (.signUp user) (u.screens c)
  | tappedSubmit {n : NewSocialViewController} {submission : Submission}
      (htouch : (u.screens c).touchable = true) (hn : (u.screens c).newSocial = some n)
      (hsubmission : n.submission = some submission) :
      Calls u c .tappedSubmit (.newPostWithImage submission)
        { u.screens c with spinner := (u.screens c).spinner.show "Uploading Post" true }
  | logOut {revoked : Bool} (hfront : (u.screens c).feedInFront = true) :
      Calls u c (.logOut none revoked) (.feed (.logOut true revoked)) (u.screens c).showLogin
  | logOutFails {message : String} {revoked : Bool} (hfront : (u.screens c).feedInFront = true) :
      Calls u c (.logOut (some message) revoked) (.feed (.logOut false revoked))
        ((u.screens c).presentAlert ⟨"Error Logging Out", message⟩)

variable {u u' : UI ι} {c : ι} {x : ScreenAction}

omit [DecidableEq ι] in
theorem input_calls {a : ClientAction} {s : Screens} (h : u.input c x = some (some a, s)) :
    Calls u c x a s := by
  cases x with
  | device b =>
      obtain ⟨hform, h⟩ := Option.ite_none_left_eq_some.mp h
      obtain ⟨hb, rfl⟩ := Prod.mk.inj (Option.some.inj h)
      obtain rfl := Option.some.inj hb
      simp only [Bool.or_eq_true, not_or] at hform
      exact .device (Bool.eq_false_of_not_eq_true hform.1)
  | tappedLogin uid =>
      obtain ⟨hcond, h⟩ := Option.ite_none_right_eq_some.mp h
      obtain ⟨l, hl, h⟩ := Option.map_eq_some_iff.mp h
      obtain ⟨ha, rfl⟩ := Prod.mk.inj h
      obtain rfl := Option.some.inj (Option.ite_none_right_eq_some.mp ha).2
      rw [Bool.and_eq_true] at hcond
      exact .tappedLogin hcond.1 hl
  | tappedCreateAccount =>
      obtain ⟨htouch, h⟩ := Option.ite_none_right_eq_some.mp h
      obtain ⟨f, hf, h⟩ := Option.map_eq_some_iff.mp h
      split at h
      · rename_i user huser
        obtain ⟨ha, rfl⟩ := Prod.mk.inj h
        obtain rfl := Option.some.inj ha
        exact .tappedCreateAccount htouch hf huser
      · cases h
  | tappedSubmit =>
      obtain ⟨htouch, h⟩ := Option.ite_none_right_eq_some.mp h
      obtain ⟨n, hn, h⟩ := Option.map_eq_some_iff.mp h
      split at h
      · rename_i submission hsubmission
        obtain ⟨ha, rfl⟩ := Prod.mk.inj h
        obtain rfl := Option.some.inj ha
        exact .tappedSubmit htouch hn hsubmission
      · cases h
  | logOut error revoked =>
      obtain ⟨hfront, h⟩ := Option.ite_none_right_eq_some.mp h
      obtain ⟨ha, rfl⟩ := Prod.mk.inj (Option.some.inj h)
      obtain rfl := Option.some.inj ha
      cases error with
      | none => exact .logOut hfront
      | some message => exact .logOutFails hfront
  | didFinishPickingMedia | didCancelPicking | selectPicture | tappedDismiss | tappedSignUp
  | tappedBackButton | newPost | cancelNewPost | spinnerBlock | spinnerFaded =>
      obtain ⟨-, h⟩ := Option.ite_none_right_eq_some.mp h
      cases h
  | typedLogin | typedSignup | typedEvent =>
      obtain ⟨y, -, h⟩ := Option.map_eq_some_iff.mp h
      cases h
  | pickedDate =>
      obtain ⟨-, h⟩ := Option.ite_none_right_eq_some.mp h
      obtain ⟨y, -, h⟩ := Option.map_eq_some_iff.mp h
      cases h

/-- **Inversion**: a step is one of these. -/
theorem step_cases (h : u.step (c, x) = some u') : Step u c x u' := by
  obtain ⟨⟨call, s⟩, hinput, h⟩ := Option.bind_eq_some_iff.mp h
  cases call with
  | none => exact Option.some.inj h ▸ .quiet hinput
  | some a =>
      obtain ⟨outcome, hperform, rfl⟩ := Option.map_eq_some_iff.mp h
      cases outcome with
      | ok w => exact .calls hinput hperform
      | error trap => exact .traps hinput hperform

/-- **A step of a device with its screens** is a step of the world, or leaves it alone. -/
theorem Step.world (h : Step u c x u') : u'.world = u.world ∨
    ∃ a s, u.input c x = some (some a, s) ∧ u.world.step (c, a) = some u'.world := by
  cases h with
  | quiet hinput => exact Or.inl rfl
  | calls hinput hok =>
      exact Or.inr ⟨_, _, hinput, by simp only [World.step, hok]; rfl⟩
  | traps hinput herror =>
      exact Or.inr ⟨_, _, hinput, by simp only [World.step, herror]; rfl⟩

/-- A step of one device leaves the others and their screens alone. -/
theorem Step.of_ne (h : Step u c x u') {d : ι} (hd : d ≠ c) :
    u'.screens d = u.screens d ∧ u'.world.clients d = u.world.clients d := by
  refine ⟨by cases h <;> simp [setScreens, hd], ?_⟩
  rcases h.world with hsame | ⟨a, s, -, hstep⟩
  · rw [hsame]
  · exact (World.step_cases hstep).clients_of_ne hd

end UI

/-! ### Uploads on their way -/

/-- The uploads of a device whose completion has not run. -/
def Client.inFlight [Platform] (client : Client) : ℕ :=
  client.uploads.length + client.uploaded.length

/-- The completions of an upload. -/
def ClientAction.endsUpload [Platform] : ClientAction → Bool
  | .uploadSucceeds _ _ | .uploadFails _ | .uploadReplyLost _ => true
  | _ => false

namespace World

variable [Platform] {ι : Type} [DecidableEq ι] {w w' : World ι} {c : ι} {a : ClientAction}

theorem clients_issue_inFlight (w : World ι) (c : ι) (x : Write) :
    ((w.issue c x).clients c).inFlight = (w.clients c).inFlight := by
  simp [issue, refresh, setApp, Client.inFlight]

theorem clients_terminate_inFlight (w : World ι) (c : ι) :
    ((w.terminate c).clients c).inFlight = 0 := by
  simp [terminate, Client.inFlight]

theorem inFlight_of_endsUpload (ha : a.endsUpload = true) (h : w.perform c a = some (.ok w')) :
    (w'.clients c).inFlight + 1 = (w.clients c).inFlight := by
  have herase : ∀ {us : List Upload} {i : ℕ} {u : Upload}, us[i]? = some u →
      (us.eraseIdx i).length + 1 = us.length := fun hu =>
    List.length_eraseIdx_add_one (List.getElem?_eq_some_iff.mp hu).1
  cases a with
  | uploadSucceeds i key =>
      obtain ⟨-, h⟩ := Option.ite_none_right_eq_some.mp h
      obtain ⟨u, hu, h⟩ := Option.map_eq_some_iff.mp h
      obtain ⟨write, -, rfl⟩ := map_eq_ok.mp h
      rw [clients_issue_inFlight]
      have := herase hu
      simp only [clients_modify_self, Client.inFlight]
      omega
  | uploadFails i =>
      obtain ⟨u, hu, h⟩ := Option.map_eq_some_iff.mp h
      obtain rfl := Except.ok.inj h
      have := herase hu
      simp only [clients_modify_self, Client.inFlight]
      omega
  | uploadReplyLost i =>
      obtain ⟨u, hu, h⟩ := Option.map_eq_some_iff.mp h
      obtain rfl := Except.ok.inj h
      have := herase hu
      simp only [clients_modify_self, Client.inFlight]
      omega
  | _ => cases ha

theorem inFlight_newPostWithImage {submission : Submission}
    (h : w.perform c (.newPostWithImage submission) = some (.ok w')) :
    (w'.clients c).inFlight = (w.clients c).inFlight + 1 := by
  obtain ⟨u, -, rfl⟩ := map_eq_ok.mp (Option.some.inj h)
  simp only [clients_modify_self, Client.inFlight, List.length_append, List.length_singleton]
  omega

/-- No other action begins an upload or ends one. -/
theorem inFlight_of_other (hends : a.endsUpload = false)
    (hsubmits : ∀ submission, a ≠ .newPostWithImage submission) (hterminate : a ≠ .terminate)
    (h : w.perform c a = some (.ok w')) :
    (w'.clients c).inFlight = (w.clients c).inFlight := by
  have hstep : w.step (c, a) = some w' := by simp only [step, h]; rfl
  cases World.step_cases hstep with
  | trapped htrap => cases h.symm.trans htrap
  | newPostWithImage hu => exact absurd rfl (hsubmits _)
  | terminate => exact absurd rfl hterminate
  | uploadFails | uploadReplyLost | uploadSucceeds => cases hends
  | @pictureStored i u hu =>
      have hlength := List.length_eraseIdx_add_one (List.getElem?_eq_some_iff.mp hu).1
      simp only [clients_modify_self, Client.inFlight, List.length_append, List.length_singleton]
      omega
  | feed | signUp | accountCreated | signUpFails | arrive | reject | sync =>
      simp [setApp, refresh, Client.inFlight]
  | tappedInterested | signUpSucceeds =>
      rw [clients_issue_inFlight]
      simp [setApp, Client.inFlight]

end World

/-! ### The spinner -/

/-- The spinner is on the window exactly for an upload on its way or a `hide()` that has not
come to its end, and the form that was submitted stays under it. -/
structure SpinnerInv [Platform] (client : Client) (s : Screens) : Prop where
  pending : client.inFlight + s.spinner.blocks + s.spinner.fading = s.spinner.superview.toNat
  form : 0 < client.inFlight → s.newSocial.isSome ∧ s.alert = none ∧ s.imagePicker = false
  modal : s.newSocial.isSome → s.login = none
  stack : s.signup.isSome → s.login.isSome

namespace SpinnerInv

variable [Platform] {client client' : Client} {s s' : Screens}

theorem launched (h : client.inFlight = 0) : SpinnerInv client {} :=
  ⟨by simp [h], by simp [h], by simp, by simp⟩

/-- Where the window is free, no upload is on its way. -/
theorem inFlight_eq_zero (h : SpinnerInv client s) (hfree : s.spinner.superview = false) :
    client.inFlight = 0 := by
  have hpending := h.pending
  rw [hfree, Bool.toNat_false] at hpending
  omega

/-- Where a touch reaches a screen, no upload is on its way. -/
theorem inFlight_of_touchable (h : SpinnerInv client s) (htouch : s.touchable = true) :
    client.inFlight = 0 := by
  simp only [Screens.touchable, Bool.and_eq_true, Bool.not_eq_true'] at htouch
  exact h.inFlight_eq_zero htouch.1.1

theorem inFlight_le_one (h : SpinnerInv client s) : client.inFlight ≤ 1 := by
  have hpending := h.pending
  have hle := Bool.toNat_le s.spinner.superview
  omega

/-- While the login screen is presented, no upload is on its way. -/
theorem inFlight_of_login (h : SpinnerInv client s) (hlogin : s.login.isSome) :
    client.inFlight = 0 := by
  by_contra hflight
  have hnone := h.modal (h.form (Nat.pos_of_ne_zero hflight)).1
  rw [hnone] at hlogin
  cases hlogin

/-- A change of the screens while no upload is on its way. -/
theorem idle (h : SpinnerInv client s) (hidle : client.inFlight = 0)
    (hsame : client'.inFlight = client.inFlight) (hspinner : s'.spinner = s.spinner)
    (hmodal : s'.newSocial.isSome → s'.login = none)
    (hstack : s'.signup.isSome → s'.login.isSome) : SpinnerInv client' s' where
  pending := by rw [hsame, hspinner]; exact h.pending
  form hflight := by omega
  modal := hmodal
  stack := hstack

theorem showLogin (h : SpinnerInv client s) (hsame : client'.inFlight = client.inFlight) :
    SpinnerInv client' s.showLogin := by
  rw [Screens.showLogin]
  split
  · rename_i hfree
    simp only [Bool.and_eq_true, Option.isNone_iff_eq_none] at hfree
    obtain ⟨⟨hlogin, hnew⟩, -⟩ := hfree
    refine h.idle ?_ hsame rfl (by simp [hnew]) (by simp)
    by_contra hflight
    have hsome := (h.form (Nat.pos_of_ne_zero hflight)).1
    rw [hnew] at hsome
    cases hsome
  · exact ⟨by rw [hsame]; exact h.pending, by rw [hsame]; exact h.form, h.modal, h.stack⟩

theorem presentAlert (h : SpinnerInv client s) (hidle : client.inFlight = 0)
    (hsame : client'.inFlight = client.inFlight) (a : Alert) :
    SpinnerInv client' (s.presentAlert a) := by
  rw [Screens.presentAlert]
  split <;> exact h.idle hidle hsame rfl h.modal h.stack

theorem dismissLogin (h : SpinnerInv client s) (hidle : client.inFlight = 0)
    (hsame : client'.inFlight = client.inFlight) : SpinnerInv client' s.dismissLogin := by
  rw [Screens.dismissLogin]
  split
  · exact h.idle hidle hsame rfl h.modal h.stack
  · exact h.idle hidle hsame rfl (by simp) (by simp)

theorem dismissNewSocial (h : SpinnerInv client s) (hidle : client.inFlight = 0)
    (hsame : client'.inFlight = client.inFlight) : SpinnerInv client' s.dismissNewSocial := by
  rw [Screens.dismissNewSocial]
  split
  · exact h.idle hidle hsame rfl h.modal h.stack
  · split
    · exact h.idle hidle hsame rfl h.modal h.stack
    · exact h.idle hidle hsame rfl (by simp) h.stack

/-- The completion of the upload under the spinner hides it. -/
theorem hide (h : SpinnerInv client s) (hends : client'.inFlight + 1 = client.inFlight) :
    SpinnerInv client' { s with spinner := s.spinner.hide } where
  pending := by
    have hpending := h.pending
    simp only [MKFullSpinner.hide]
    omega
  form hflight := by
    have hle := h.inFlight_le_one
    omega
  modal := h.modal
  stack := h.stack

/-- The form is submitted, and the spinner covers it. -/
theorem submit (h : SpinnerInv client s) (htouch : s.touchable = true) (hnew : s.newSocial.isSome)
    (hbegins : client'.inFlight = client.inFlight + 1) :
    SpinnerInv client' { s with spinner := s.spinner.show "Uploading Post" true } := by
  simp only [Screens.touchable, Bool.and_eq_true, Bool.not_eq_true', Option.isNone_iff_eq_none]
    at htouch
  obtain ⟨⟨hfree, halert⟩, hpicker⟩ := htouch
  refine ⟨?_, fun _ => ⟨hnew, halert, hpicker⟩, h.modal, h.stack⟩
  have hpending := h.pending
  rw [hfree, Bool.toNat_false] at hpending
  simp only [MKFullSpinner.show, Bool.toNat_true]
  omega

theorem hideBlock (h : SpinnerInv client s) (hblocks : 0 < s.spinner.blocks) :
    SpinnerInv client { s with spinner := s.spinner.hideBlock } where
  pending := by
    have hpending := h.pending
    simp only [MKFullSpinner.hideBlock]
    cases hsuper : s.spinner.superview with
    | true =>
        rw [hsuper, Bool.toNat_true] at hpending
        simp only [if_true, Bool.toNat_true]
        omega
    | false =>
        rw [hsuper, Bool.toNat_false] at hpending
        omega
  form := h.form
  modal := h.modal
  stack := h.stack

theorem faded (h : SpinnerInv client s) (hfading : 0 < s.spinner.fading) :
    SpinnerInv client { s with spinner := s.spinner.faded } where
  pending := by
    have hpending := h.pending
    have hle := Bool.toNat_le s.spinner.superview
    simp only [MKFullSpinner.faded, Bool.toNat_false]
    omega
  form := h.form
  modal := h.modal
  stack := h.stack

variable {ι : Type} [DecidableEq ι] {w w' : World ι} {c : ι} {a : ClientAction}

/-- **The completions of a device** keep the spinner with its upload. -/
theorem after (h : SpinnerInv (w.clients c) s) (hform : a.ofForm = false)
    (hok : w.perform c a = some (.ok w')) (user : Option Uid) :
    SpinnerInv (w'.clients c) (s.after user a) := by
  have hends : a.endsUpload = true → (w'.clients c).inFlight + 1 = (w.clients c).inFlight :=
    fun ha => World.inFlight_of_endsUpload ha hok
  have hother : a.endsUpload = false → a ≠ .terminate →
      (w'.clients c).inFlight = (w.clients c).inFlight := by
    intro ha hterminate
    refine World.inFlight_of_other ha ?_ hterminate hok
    rintro submission rfl
    cases hform
  have hsame : a.endsUpload = false → a ≠ .terminate → SpinnerInv (w'.clients c) s :=
    fun ha hterminate => ⟨by rw [hother ha hterminate]; exact h.pending,
      by rw [hother ha hterminate]; exact h.form, h.modal, h.stack⟩
  cases a with
  | uploadSucceeds i key =>
      have hhide := h.hide (hends rfl)
      have hle := h.inFlight_le_one
      have hidle : (w'.clients c).inFlight = 0 := by
        have := hends rfl
        omega
      exact hhide.dismissNewSocial hidle rfl
  | uploadFails | uploadReplyLost => exact h.hide (hends rfl)
  | terminate =>
      obtain rfl := Except.ok.inj (Option.some.inj hok)
      exact .launched (World.clients_terminate_inFlight w c)
  | signUpSucceeds i =>
      simp only [Screens.after]
      split
      · rename_i hsignup
        exact h.dismissLogin (h.inFlight_of_login (h.stack hsignup))
          (hother rfl (by rintro ⟨⟩))
      · exact hsame rfl (by rintro ⟨⟩)
  | signUpFails i =>
      simp only [Screens.after]
      split
      · rename_i hsignup
        exact h.presentAlert (h.inFlight_of_login (h.stack hsignup))
          (hother rfl (by rintro ⟨⟩)) _
      · exact hsame rfl (by rintro ⟨⟩)
  | feed b =>
      cases b with
      | viewWillAppear =>
          simp only [Screens.after]
          split
          · exact h.showLogin (hother rfl (by rintro ⟨⟩))
          · exact hsame rfl (by rintro ⟨⟩)
      | signInReply uid succeeded =>
          simp only [Screens.after]
          split
          · exact hsame rfl (by rintro ⟨⟩)
          · rename_i hlogin
            have hidle := h.inFlight_of_login
              (Option.isNone_eq_false_iff.mp (Bool.eq_false_of_not_eq_true hlogin))
            split
            · exact h.dismissLogin hidle (hother rfl (by rintro ⟨⟩))
            · split
              · exact hsame rfl (by rintro ⟨⟩)
              · exact h.presentAlert hidle (hother rfl (by rintro ⟨⟩)) _
      | _ => exact hsame rfl (by rintro ⟨⟩)
  | _ => exact hsame rfl (by rintro ⟨⟩)

end SpinnerInv

namespace UI

variable [Platform] {ι : Type} [DecidableEq ι] {u u' : UI ι} {c : ι} {x : ScreenAction}

omit [DecidableEq ι] in
/-- **A touch, a key or a callback** that calls nothing keeps the spinner with its upload. -/
theorem spinnerInv_quiet {s : Screens} (h : SpinnerInv (u.world.clients c) (u.screens c))
    (hinput : u.input c x = some (none, s)) : SpinnerInv (u.world.clients c) s := by
  cases x with
  | device a =>
      simp only [input] at hinput
      split at hinput <;> cases hinput
  | typedLogin email password =>
      obtain ⟨l, hl, hinput⟩ := Option.map_eq_some_iff.mp hinput
      obtain ⟨-, rfl⟩ := Prod.mk.inj hinput
      exact ⟨h.pending, h.form, fun hnew => by simp [h.modal hnew] at hl, by simp⟩
  | typedSignup fullName username email password =>
      obtain ⟨f, hf, hinput⟩ := Option.map_eq_some_iff.mp hinput
      obtain ⟨-, rfl⟩ := Prod.mk.inj hinput
      exact ⟨h.pending, h.form, h.modal, fun _ => h.stack (by simp [hf])⟩
  | typedEvent name description =>
      obtain ⟨n, hn, hinput⟩ := Option.map_eq_some_iff.mp hinput
      obtain ⟨-, rfl⟩ := Prod.mk.inj hinput
      exact ⟨h.pending, fun hflight => ⟨rfl, (h.form hflight).2⟩,
        fun _ => h.modal (by simp [hn]), h.stack⟩
  | pickedDate date =>
      obtain ⟨htouch, hinput⟩ := Option.ite_none_right_eq_some.mp hinput
      obtain ⟨n, hn, hinput⟩ := Option.map_eq_some_iff.mp hinput
      obtain ⟨-, rfl⟩ := Prod.mk.inj hinput
      exact h.idle (h.inFlight_of_touchable htouch) rfl rfl (fun _ => h.modal (by simp [hn]))
        h.stack
  | selectPicture =>
      obtain ⟨hcond, hinput⟩ := Option.ite_none_right_eq_some.mp hinput
      obtain ⟨-, rfl⟩ := Prod.mk.inj (Option.some.inj hinput)
      rw [Bool.and_eq_true] at hcond
      exact h.idle (h.inFlight_of_touchable hcond.1) rfl rfl h.modal h.stack
  | didFinishPickingMedia image =>
      obtain ⟨hcond, hinput⟩ := Option.ite_none_right_eq_some.mp hinput
      obtain ⟨-, rfl⟩ := Prod.mk.inj (Option.some.inj hinput)
      simp only [Bool.and_eq_true, Bool.not_eq_true'] at hcond
      refine SpinnerInv.dismissNewSocial ?_ (h.inFlight_eq_zero hcond.2) rfl
      exact h.idle (h.inFlight_eq_zero hcond.2) rfl rfl
        (fun hnew => h.modal (by simpa using hnew)) h.stack
  | didCancelPicking =>
      obtain ⟨hcond, hinput⟩ := Option.ite_none_right_eq_some.mp hinput
      obtain ⟨-, rfl⟩ := Prod.mk.inj (Option.some.inj hinput)
      simp only [Bool.and_eq_true, Bool.not_eq_true'] at hcond
      exact h.dismissNewSocial (h.inFlight_eq_zero hcond.2) rfl
  | tappedDismiss =>
      obtain ⟨hcond, hinput⟩ := Option.ite_none_right_eq_some.mp hinput
      obtain ⟨-, rfl⟩ := Prod.mk.inj (Option.some.inj hinput)
      simp only [Bool.and_eq_true, Bool.not_eq_true'] at hcond
      exact h.idle (h.inFlight_eq_zero hcond.2) rfl rfl h.modal h.stack
  | tappedLogin uid =>
      obtain ⟨-, hinput⟩ := Option.ite_none_right_eq_some.mp hinput
      obtain ⟨l, hl, hinput⟩ := Option.map_eq_some_iff.mp hinput
      obtain ⟨-, rfl⟩ := Prod.mk.inj hinput
      exact h
  | tappedSignUp =>
      obtain ⟨hcond, hinput⟩ := Option.ite_none_right_eq_some.mp hinput
      obtain ⟨-, rfl⟩ := Prod.mk.inj (Option.some.inj hinput)
      simp only [Bool.and_eq_true] at hcond
      exact h.idle (h.inFlight_of_touchable hcond.1.1) rfl rfl h.modal fun _ => hcond.1.2
  | tappedCreateAccount =>
      obtain ⟨htouch, hinput⟩ := Option.ite_none_right_eq_some.mp hinput
      obtain ⟨f, hf, hinput⟩ := Option.map_eq_some_iff.mp hinput
      split at hinput
      · cases hinput
      · obtain ⟨-, rfl⟩ := Prod.mk.inj hinput
        exact h.presentAlert (h.inFlight_of_touchable htouch) rfl _
  | tappedBackButton =>
      obtain ⟨hcond, hinput⟩ := Option.ite_none_right_eq_some.mp hinput
      obtain ⟨-, rfl⟩ := Prod.mk.inj (Option.some.inj hinput)
      rw [Bool.and_eq_true] at hcond
      exact h.idle (h.inFlight_of_touchable hcond.1) rfl rfl h.modal (by simp)
  | newPost date =>
      obtain ⟨hfront, hinput⟩ := Option.ite_none_right_eq_some.mp hinput
      obtain ⟨-, rfl⟩ := Prod.mk.inj (Option.some.inj hinput)
      simp only [Screens.feedInFront, Bool.and_eq_true, Option.isNone_iff_eq_none] at hfront
      exact h.idle (h.inFlight_of_touchable hfront.1.1) rfl rfl (fun _ => hfront.1.2) h.stack
  | cancelNewPost =>
      obtain ⟨hcond, hinput⟩ := Option.ite_none_right_eq_some.mp hinput
      obtain ⟨-, rfl⟩ := Prod.mk.inj (Option.some.inj hinput)
      rw [Bool.and_eq_true] at hcond
      exact h.dismissNewSocial (h.inFlight_of_touchable hcond.1) rfl
  | tappedSubmit =>
      obtain ⟨htouch, hinput⟩ := Option.ite_none_right_eq_some.mp hinput
      obtain ⟨n, hn, hinput⟩ := Option.map_eq_some_iff.mp hinput
      split at hinput
      · cases hinput
      · obtain ⟨-, rfl⟩ := Prod.mk.inj hinput
        exact h.presentAlert (h.inFlight_of_touchable htouch) rfl _
  | logOut error revoked =>
      obtain ⟨-, hinput⟩ := Option.ite_none_right_eq_some.mp hinput
      cases hinput
  | spinnerBlock =>
      obtain ⟨hblocks, hinput⟩ := Option.ite_none_right_eq_some.mp hinput
      obtain ⟨-, rfl⟩ := Prod.mk.inj (Option.some.inj hinput)
      exact h.hideBlock hblocks
  | spinnerFaded =>
      obtain ⟨hfading, hinput⟩ := Option.ite_none_right_eq_some.mp hinput
      obtain ⟨-, rfl⟩ := Prod.mk.inj (Option.some.inj hinput)
      exact h.faded hfading

/-- **A call** keeps the spinner with its upload. -/
theorem spinnerInv_calls {s : Screens} {a : ClientAction} {w : World ι}
    (h : SpinnerInv (u.world.clients c) (u.screens c)) (hcall : Calls u c x a s)
    (hok : u.world.perform c a = some (.ok w)) : SpinnerInv (w.clients c) s := by
  cases hcall with
  | device hform => exact h.after hform hok _
  | tappedLogin htouch | tappedCreateAccount htouch =>
      exact h.idle (h.inFlight_of_touchable htouch)
        (World.inFlight_of_other rfl (by rintro _ ⟨⟩) (by rintro ⟨⟩) hok) rfl h.modal h.stack
  | tappedSubmit htouch hn =>
      exact h.submit htouch (by simp [hn]) (World.inFlight_newPostWithImage hok)
  | logOut => exact h.showLogin (World.inFlight_of_other rfl (by rintro _ ⟨⟩) (by rintro ⟨⟩) hok)
  | logOutFails hfront =>
      simp only [Screens.feedInFront, Bool.and_eq_true] at hfront
      exact h.presentAlert (h.inFlight_of_touchable hfront.1.1)
        (World.inFlight_of_other rfl (by rintro _ ⟨⟩) (by rintro ⟨⟩) hok) _

/-- **One step** of any device keeps every spinner with its upload. -/
theorem Step.spinnerInv (hst : Step u c x u')
    (h : ∀ d, SpinnerInv (u.world.clients d) (u.screens d)) (d : ι) :
    SpinnerInv (u'.world.clients d) (u'.screens d) := by
  by_cases hd : d = c
  · subst hd
    cases hst with
    | quiet hinput => simpa [setScreens] using spinnerInv_quiet (h d) hinput
    | calls hinput hok =>
        simpa [setScreens] using spinnerInv_calls (h d) (input_calls hinput) hok
    | @traps a s trap hinput herror =>
        have hidle : ((u.world.trapped d a trap).clients d).inFlight = 0 :=
          World.clients_terminate_inFlight _ d
        simpa [setScreens] using SpinnerInv.launched hidle
  · obtain ⟨hscreens, hclient⟩ := hst.of_ne hd
    rw [hscreens, hclient]
    exact h d

theorem spinnerInv_of_run {as : List (ι × ScreenAction)} (hrun : machine.run initial as = some u) :
    ∀ c, SpinnerInv (u.world.clients c) (u.screens c) :=
  Machine.run_invariant (I := fun u : UI ι => ∀ c, SpinnerInv (u.world.clients c) (u.screens c))
    (fun _ _ _ h hst => (step_cases hst).spinnerInv h) (fun _ => .launched rfl) hrun

/-- **One upload at a time.** In every run of any number of devices with their screens, a
device never has more than one upload on its way. As long as it has one, the form that was
submitted is in front under the spinner and no touch reaches it; and when it has none, the
spinner is on the window only for a `hide()` that has not come to its end. -/
theorem one_upload {as : List (ι × ScreenAction)} (hrun : machine.run initial as = some u)
    (c : ι) : (u.world.clients c).inFlight ≤ 1 ∧
      ((u.world.clients c).inFlight = 1 → (u.screens c).newSocial.isSome ∧
        (u.screens c).alert = none ∧ (u.screens c).touchable = false) ∧
      ((u.world.clients c).inFlight = 0 → ((u.screens c).spinner.superview = true ↔
        (u.screens c).spinner.blocks + (u.screens c).spinner.fading = 1)) := by
  have h := spinnerInv_of_run hrun c
  have hpending := h.pending
  refine ⟨h.inFlight_le_one, fun hone => ?_, fun hidle => ?_⟩
  · obtain ⟨hform, halert, -⟩ := h.form (by omega)
    refine ⟨hform, halert, ?_⟩
    by_contra htouch
    have hzero := h.inFlight_of_touchable (Bool.eq_true_of_not_eq_false htouch)
    omega
  · cases hsuper : (u.screens c).spinner.superview with
    | true =>
        rw [hsuper, Bool.toNat_true] at hpending
        exact iff_of_true rfl (by omega)
    | false =>
        rw [hsuper, Bool.toNat_false] at hpending
        exact iff_of_false (by simp) (by omega)

end UI

/-! ### A submission -/

namespace UI

attribute [local instance] Platform.reference

/-- Ann signs up through the forms and submits a post. -/
def annSubmits : List (ℕ × ScreenAction) :=
  [(0, .device (.feed .viewWillAppear)), (0, .tappedSignUp),
    (0, .typedSignup "Ann" "ann1" "ann@x.org" "secret"), (0, .tappedCreateAccount),
    (0, .device (.accountCreated 0 "ann")), (0, .device (.signUpSucceeds 0)),
    (0, .device (.feed .viewWillAppear)), (0, .newPost "Feb 21, 9:00 PM"),
    (0, .typedEvent "Party" "at nine"), (0, .selectPicture), (0, .didFinishPickingMedia ⟨[1]⟩),
    (0, .tappedSubmit)]

theorem one_upload_submitted : ∃ u : UI ℕ, machine.run initial annSubmits = some u ∧
    (u.world.clients 0).inFlight = 1 ∧ (u.screens 0).touchable = false := by
  have hrun : (machine.run (initial : UI ℕ) annSubmits).map (fun u =>
      (u.world.clients 0).inFlight) = some 1 := by decide
  obtain ⟨u, hu, hone⟩ := Option.map_eq_some_iff.mp hrun
  exact ⟨u, hu, hone, ((one_upload hu 0).2.1 hone).2.2⟩

end UI

end MDBSocials
