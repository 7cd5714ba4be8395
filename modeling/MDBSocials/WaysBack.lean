import MDBSocials.Casts
import MDBSocials.Feeds
import MDBSocials.Sessions

/-!
# Ways Back to the Feed

A device can be in many states: under the spinner of an upload, under an alert or a picture
picker, in a form, at the login screen or on a feed whose session is over, with a feed that
shows nothing or everything twice. From each of them touches and replies lead back to a feed
that shows what the device sees, and nothing is lost or written on the way.

## Main results

* `leads_free`, `leads_touchable`, `leads_closed`: the spinner goes, then what is in front of
  the screens, then the form.
* `leads_signedIn`: then whoever has an account gets in.
* `no_dead_end`: from every state of every run, whoever has an account can come to a feed
  that shows exactly the posts that the device sees.
-/

namespace MDBSocials

open scoped List

namespace UI

variable [Platform] {ι : Type} [DecidableEq ι] {u u' u'' : UI ι} {c : ι} {x : ScreenAction}

/-! ### What a device can come to -/

/-- A touch or a reply: no process ends, and no session by itself. `revoked` says whether the
server detaches the observers of whoever logs out. -/
def Responds (revoked : Bool) : ScreenAction → Prop
  | .device .terminate | .device (.feed (.sessionLoss _)) => False
  | .logOut _ detached => detached = revoked
  | _ => True

/-- Touches of a device and replies to its requests lead from one state to another. No handler
traps, and nothing is written. -/
def Leads (revoked : Bool) (c : ι) (u u' : UI ι) : Prop :=
  ∃ bs, machine.run u bs = some u' ∧ (∀ b ∈ bs, b.1 = c ∧ Responds revoked b.2) ∧
    u'.world.traps = u.world.traps ∧ u'.world.db = u.world.db

variable {revoked : Bool}

namespace Leads

theorem refl (revoked : Bool) (c : ι) (u : UI ι) : Leads revoked c u u :=
  ⟨[], rfl, by simp, rfl, rfl⟩

theorem trans (h : Leads revoked c u u') (h' : Leads revoked c u' u'') :
    Leads revoked c u u'' := by
  obtain ⟨bs, hrun, hbs, htraps, hdb⟩ := h
  obtain ⟨bs', hrun', hbs', htraps', hdb'⟩ := h'
  refine ⟨bs ++ bs', Machine.run_append_eq_some.mpr ⟨u', hrun, hrun'⟩, fun b hb => ?_,
    htraps'.trans htraps, hdb'.trans hdb⟩
  exact (List.mem_append.mp hb).elim (hbs b) (hbs' b)

theorem single (hst : u.step (c, x) = some u') (hx : Responds revoked x)
    (htraps : u'.world.traps = u.world.traps) (hdb : u'.world.db = u.world.db) :
    Leads revoked c u u' :=
  ⟨[(c, x)], Machine.run_cons_eq_some.mpr ⟨u', hst, rfl⟩, by simp [hx], htraps, hdb⟩

/-- Accounts stay. -/
theorem accounts_subset (h : Leads revoked c u u') : u.world.accounts ⊆ u'.world.accounts := by
  obtain ⟨bs, hrun, -⟩ := h
  refine Machine.run_invariant (I := fun v : UI ι => u.world.accounts ⊆ v.world.accounts)
    (fun v b v' hv hst => ?_) (List.Subset.refl _) hrun
  obtain ⟨d, y⟩ := b
  rcases (step_cases hst).world with hsame | ⟨a, s, -, hstep⟩
  · exact hsame ▸ hv
  · exact List.Subset.trans hv (World.step_cases hstep).accounts_subset

end Leads

/-- A change of the screens alone. -/
theorem leads_quiet {s : Screens} (hinput : u.input c x = some (none, s)) :
    ∃ u', Leads revoked c u u' ∧ u'.screens c = s ∧ u'.world = u.world := by
  have hst : u.step (c, x) = some (u.setScreens c s) := by
    simp only [step, hinput, Option.bind_some]
  refine ⟨u.setScreens c s, .single hst ?_ rfl rfl, by simp [setScreens], rfl⟩
  -- the calls of the feed are not quiet
  cases x with
  | device b =>
      obtain ⟨-, hinput⟩ := Option.ite_none_left_eq_some.mp hinput
      cases hinput
  | logOut error detached =>
      obtain ⟨-, hinput⟩ := Option.ite_none_right_eq_some.mp hinput
      cases hinput
  | _ => trivial

/-- A call of a handler of the feed. -/
theorem leads_feed {b : FeedAction} {a : Action} {app : App} {s : Screens}
    (hinput : u.input c x = some (some (.feed b), s)) (hb : u.world.input c b = some a)
    (happ : (u.world.app c).step a = some app) (hx : Responds revoked x) :
    ∃ u', Leads revoked c u u' ∧ u'.screens c = s ∧ u'.world.app c = app := by
  have hok : u.world.perform c (.feed b) = some (.ok (u.world.setApp c app)) := by
    simp [World.perform, hb, App.step_eq_some.mp happ, Except.map]
  have hst : u.step (c, x) = some ({ u with world := u.world.setApp c app }.setScreens c s) := by
    simp only [step, hinput, Option.bind_some, hok, Option.map_some]
  exact ⟨_, .single hst hx rfl rfl, by simp [setScreens], by simp [setScreens, World.setApp]⟩

/-! ### The spinner -/

/-- The animation of `hide()` ends. -/
theorem leads_faded (hfading : 0 < (u.screens c).spinner.fading) :
    ∃ u', Leads revoked c u u' ∧ (u'.screens c).spinner.superview = false := by
  obtain ⟨u', hleads, hs, -⟩ := leads_quiet (x := .spinnerFaded) (if_pos hfading)
  exact ⟨u', hleads, by rw [hs]; rfl⟩

/-- A block of `hide()` runs, and its animation ends. -/
theorem leads_hidden (hblocks : 0 < (u.screens c).spinner.blocks)
    (hsuper : (u.screens c).spinner.superview = true) :
    ∃ u', Leads revoked c u u' ∧ (u'.screens c).spinner.superview = false := by
  obtain ⟨u₁, hleads, hs, -⟩ := leads_quiet (x := .spinnerBlock) (if_pos hblocks)
  have hfading : 0 < (u₁.screens c).spinner.fading := by
    simp [hs, MKFullSpinner.hideBlock, hsuper]
  obtain ⟨u₂, hleads', hfree⟩ := leads_faded hfading
  exact ⟨u₂, hleads.trans hleads', hfree⟩

/-- A completion that calls `hide()` comes. -/
theorem leads_hide {a : ClientAction} {w : World ι} (hok : u.world.perform c a = some (.ok w))
    (hform : a.ofForm = false) (htouch : a.isTouch = false) (hx : Responds revoked (.device a))
    (hafter : (u.screens c).after (u.world.app c).currentUser a =
      { u.screens c with spinner := (u.screens c).spinner.hide })
    (htraps : w.traps = u.world.traps) (hdb : w.db = u.world.db)
    (hsuper : (u.screens c).spinner.superview = true) :
    ∃ u', Leads revoked c u u' ∧ (u'.screens c).spinner.superview = false := by
  have hst : u.step (c, .device a) = some ({ u with world := w }.setScreens c
      { u.screens c with spinner := (u.screens c).spinner.hide }) := by
    simp [step, input, hform, htouch, hafter, hok]
  have hleads := Leads.single hst hx htraps hdb
  generalize hu' : { u with world := w }.setScreens c _ = u' at hleads
  have hs : (u'.screens c).spinner = (u.screens c).spinner.hide := by simp [← hu', setScreens]
  obtain ⟨u'', hleads', hfree⟩ := leads_hidden (u := u') (c := c)
    (by simp [hs, MKFullSpinner.hide]) (by simpa [hs, MKFullSpinner.hide])
  exact ⟨u'', hleads.trans hleads', hfree⟩

/-- An upload ends. -/
theorem leads_uploaded (hflight : 0 < (u.world.clients c).inFlight)
    (hsuper : (u.screens c).spinner.superview = true) :
    ∃ u', Leads revoked c u u' ∧ (u'.screens c).spinner.superview = false := by
  have hsome : 0 < (u.world.clients c).uploads.length ∨
      0 < (u.world.clients c).uploaded.length := by
    rw [Client.inFlight] at hflight
    omega
  rcases hsome with hlength | hlength
  · have hok : u.world.perform c (.uploadFails 0) = some (.ok (u.world.modify c fun client =>
        { client with uploads := client.uploads.eraseIdx 0 })) := by
      simp only [World.perform, List.getElem?_eq_getElem hlength, Option.map_some]
    exact leads_hide hok rfl rfl trivial rfl rfl rfl hsuper
  · have hok : u.world.perform c (.uploadReplyLost 0) = some (.ok (u.world.modify c fun client =>
        { client with uploaded := client.uploaded.eraseIdx 0 })) := by
      simp only [World.perform, List.getElem?_eq_getElem hlength, Option.map_some]
    exact leads_hide hok rfl rfl trivial rfl rfl rfl hsuper

/-- **The spinner goes**, by the end of the upload or of the `hide()` that it is there for. -/
theorem leads_free (revoked : Bool) (h : SpinnerInv (u.world.clients c) (u.screens c)) :
    ∃ u', Leads revoked c u u' ∧ (u'.screens c).spinner.superview = false := by
  cases hsuper : (u.screens c).spinner.superview with
  | false => exact ⟨u, .refl revoked c u, hsuper⟩
  | true =>
      have hpending := h.pending
      rw [hsuper, Bool.toNat_true] at hpending
      by_cases hflight : 0 < (u.world.clients c).inFlight
      · exact leads_uploaded hflight hsuper
      · by_cases hblocks : 0 < (u.screens c).spinner.blocks
        · exact leads_hidden hblocks hsuper
        · exact leads_faded (by omega)

/-! ### Touches -/

/-- **What is in front goes**: the picture picker is left, an alert dismissed. -/
theorem leads_touchable (hfree : (u.screens c).spinner.superview = false) :
    ∃ u', Leads revoked c u u' ∧ (u'.screens c).touchable = true := by
  have halert : ∀ u : UI ι, (u.screens c).spinner.superview = false →
      (u.screens c).imagePicker = false →
      ∃ u', Leads revoked c u u' ∧ (u'.screens c).touchable = true := by
    intro u hfree hpicker
    cases halert : (u.screens c).alert with
    | none => exact ⟨u, .refl revoked c u, by simp [Screens.touchable, hfree, halert, hpicker]⟩
    | some a =>
        obtain ⟨u', hleads, hs, -⟩ := leads_quiet (u := u) (c := c) (x := .tappedDismiss)
          (if_pos (by simp [halert, hfree]))
        exact ⟨u', hleads, by simp [hs, Screens.touchable, hfree, hpicker]⟩
  cases hpicker : (u.screens c).imagePicker with
  | false => exact halert u hfree hpicker
  | true =>
      obtain ⟨u₁, hleads, hs, -⟩ := leads_quiet (u := u) (c := c) (x := .didCancelPicking)
        (if_pos (by simp [hpicker, hfree]))
      obtain ⟨u₂, hleads', htouch⟩ := halert u₁
        (by simp [hs, Screens.dismissNewSocial, hpicker, hfree])
        (by simp [hs, Screens.dismissNewSocial, hpicker])
      exact ⟨u₂, hleads.trans hleads', htouch⟩

/-- **The form closes.** -/
theorem leads_closed (htouch : (u.screens c).touchable = true) :
    ∃ u', Leads revoked c u u' ∧ (u'.screens c).touchable = true ∧
      (u'.screens c).newSocial = none := by
  cases hnew : (u.screens c).newSocial with
  | none => exact ⟨u, .refl revoked c u, htouch, hnew⟩
  | some n =>
      obtain ⟨u', hleads, hs, -⟩ := leads_quiet (u := u) (c := c) (x := .cancelNewPost)
        (if_pos (by simp [htouch, hnew]))
      have hfront := htouch
      simp only [Screens.touchable, Bool.and_eq_true, Bool.not_eq_true', Option.isNone_iff_eq_none]
        at hfront
      refine ⟨u', hleads, ?_, ?_⟩
      · simp [hs, Screens.dismissNewSocial, hfront, Screens.touchable]
      · simp [hs, Screens.dismissNewSocial, hfront]

/-! ### Signing in -/

/-- The login screen is in front. -/
structure AtLogin (s : Screens) : Prop where
  touchable : s.touchable = true
  newSocial : s.newSocial = none
  login : s.login.isSome
  signup : s.signup = none

/-- From the sign-up screen, the back button leads to the login screen. -/
theorem leads_atLogin (htouch : (u.screens c).touchable = true)
    (hnew : (u.screens c).newSocial = none) (hlogin : (u.screens c).login.isSome) :
    ∃ u', Leads revoked c u u' ∧ AtLogin (u'.screens c) ∧ u'.world = u.world := by
  cases hsignup : (u.screens c).signup with
  | none => exact ⟨u, .refl revoked c u, ⟨htouch, hnew, hlogin, hsignup⟩, rfl⟩
  | some f =>
      obtain ⟨u', hleads, hs, hworld⟩ := leads_quiet (u := u) (c := c) (x := .tappedBackButton)
        (if_pos (by simp [htouch, hsignup]))
      refine ⟨u', hleads, ?_, hworld⟩
      rw [hs]
      exact ⟨htouch, hnew, hlogin, rfl⟩

/-- **Signing in** with an account leads from the login screen to the feed. -/
theorem AtLogin.leads_front (h : AtLogin (u.screens c)) {uid : Uid}
    (huid : uid ∈ u.world.accounts) :
    ∃ u', Leads revoked c u u' ∧ (u'.screens c).feedInFront = true ∧
      (u'.world.app c).currentUser = some uid ∧
      (u'.world.app c).observers = (u.world.app c).observers ∧
      (u'.world.app c).feed = (u.world.app c).feed := by
  obtain ⟨l, hl⟩ := Option.isSome_iff_exists.mp h.login
  -- the fields are filled in
  have htyped : u.input c (.typedLogin "a" "b") =
      some (none, { u.screens c with login := some ⟨"a", "b"⟩ }) := by
    simp only [input, hl, Option.map_some]
  obtain ⟨u₁, hleads₁, hs₁, hworld⟩ := leads_quiet htyped
  -- the button sends the request
  have htapped : u₁.input c (.tappedLogin uid) =
      some (some (.feed (.tappedLogin uid)), u₁.screens c) := by
    have htouch : (u₁.screens c).touchable && (u₁.screens c).signup.isNone := by
      rw [hs₁, Bool.and_eq_true]
      exact ⟨h.touchable, by simp [h.signup]⟩
    refine (if_pos htouch).trans ?_
    rw [hs₁]
    rfl
  obtain ⟨u₂, hleads₂, hs₂, happ₂⟩ := leads_feed htapped rfl rfl trivial
  have h₂ : Leads revoked c u u₂ := hleads₁.trans hleads₂
  -- and the reply dismisses the screen
  have hreplied : u₂.input c (.device (.feed (.signInReply uid true))) =
      some (some (.feed (.signInReply uid true)), (u₂.screens c).dismissLogin) := by
    simp [input, ClientAction.ofForm, ClientAction.isTouch, Screens.after, hs₂, hs₁]
  have hinput : u₂.world.input c (.signInReply uid true) = some (.signInReply uid true) :=
    if_pos fun _ => h₂.accounts_subset huid
  have hstep : (u₂.world.app c).step (.signInReply uid true) =
      some ((u₂.world.app c).signInReply uid true) :=
    App.step_eq_some.mpr (if_pos (by simp [happ₂, App.tappedLogin]))
  obtain ⟨u₃, hleads₃, hs₃, happ₃⟩ := leads_feed hreplied hinput hstep trivial
  refine ⟨u₃, h₂.trans hleads₃, ?_, ?_, ?_, ?_⟩
  · have htouch := h.touchable
    simp only [Screens.touchable, Bool.and_eq_true, Option.isNone_iff_eq_none] at htouch
    simp [hs₃, hs₂, hs₁, Screens.dismissLogin, Screens.feedInFront, Screens.touchable, htouch,
      h.newSocial]
  · rw [happ₃]
    rfl
  · rw [happ₃, happ₂, World.app, hworld]
    rfl
  · rw [happ₃, happ₂, World.app, hworld]
    rfl

/-- **Logging out** leads to the login screen. -/
theorem leads_loggedOut (hfront : (u.screens c).feedInFront = true) :
    ∃ u', Leads revoked c u u' ∧ AtLogin (u'.screens c) ∧
      u'.world.app c = (u.world.app c).logOut true revoked := by
  obtain ⟨u₁, hleads, hs, happ⟩ := leads_feed (u := u) (c := c) (x := .logOut none revoked)
    (if_pos hfront) rfl rfl rfl
  have hshown := hfront
  simp only [Screens.feedInFront, Screens.touchable, Bool.and_eq_true, Option.isNone_iff_eq_none]
    at hshown
  have hlogin : (u₁.screens c) = { u.screens c with login := some {} } := by
    rw [hs, Screens.showLogin, if_pos (by simp [hshown])]
  obtain ⟨u₂, hleads', hat, hworld⟩ := leads_atLogin (u := u₁) (c := c)
    (by rw [hlogin]; simpa [Screens.touchable] using hshown.1.1) (by rw [hlogin]; exact hshown.2)
    (by rw [hlogin]; rfl)
  exact ⟨u₂, hleads.trans hleads', hat, by rw [World.app, hworld]; exact happ⟩

/-- **Whoever has an account gets in**, once nothing is over the feed but the login screen. -/
theorem leads_signedIn (htouch : (u.screens c).touchable = true)
    (hnew : (u.screens c).newSocial = none) {uid : Uid} (huid : uid ∈ u.world.accounts) :
    ∃ u', Leads revoked c u u' ∧ (u'.screens c).feedInFront = true ∧
      (u'.world.app c).currentUser = some uid := by
  cases hlogin : (u.screens c).login with
  | some l =>
      obtain ⟨u₁, hleads, hat, -⟩ := leads_atLogin htouch hnew (by simp [hlogin])
      obtain ⟨u₂, hleads', hfront, huser, -⟩ := hat.leads_front (hleads.accounts_subset huid)
      exact ⟨u₂, hleads.trans hleads', hfront, huser⟩
  | none =>
      have hfront : (u.screens c).feedInFront = true := by
        simp [Screens.feedInFront, htouch, hnew, hlogin]
      obtain ⟨u₁, hleads, hat, -⟩ := leads_loggedOut hfront
      obtain ⟨u₂, hleads', hfront, huser, -⟩ := hat.leads_front (hleads.accounts_subset huid)
      exact ⟨u₂, hleads.trans hleads', hfront, huser⟩

/-! ### The feed -/

/-- What holds of the world in every run holds of it in every run of the screens. -/
theorem world_of_run {I : World ι → Prop}
    (hstep : ∀ w d a w', I w → World.Step w d a w' → I w') (hinitial : I .initial)
    {as : List (ι × ScreenAction)} (hrun : machine.run initial as = some u) : I u.world := by
  refine Machine.run_invariant (I := fun u : UI ι => I u.world) (fun u b u' h hst => ?_)
    hinitial hrun
  obtain ⟨d, x⟩ := b
  rcases (step_cases hst).world with hsame | ⟨a, s, -, hworld⟩
  · exact hsame ▸ h
  · exact hstep _ _ _ _ h (World.step_cases hworld)

/-- What is reached from a reachable state is reachable. -/
theorem Leads.reachable (h : Leads revoked c u u') {as : List (ι × ScreenAction)}
    (hrun : machine.run initial as = some u) : ∃ as, machine.run initial as = some u' := by
  obtain ⟨bs, hbs, -⟩ := h
  exact ⟨as ++ bs, Machine.run_append_eq_some.mpr ⟨u, hrun, hbs⟩⟩

/-- The events queued for the feed are delivered under the screens. -/
theorem leads_deliveries {is : List ℕ} {t : App}
    (h : App.machine.run (u.world.app c) (is.map .deliver) = some t) :
    ∃ u', Leads revoked c u u' ∧ u'.screens c = u.screens c ∧ u'.world.app c = t := by
  induction is generalizing u with
  | nil => exact ⟨u, .refl revoked c u, rfl, Option.some.inj h⟩
  | cons i is ih =>
      obtain ⟨s, hs, hrun⟩ := Machine.run_cons_eq_some.mp h
      have hinput : u.input c (.device (.feed (.deliver i))) =
          some (some (.feed (.deliver i)), u.screens c) := rfl
      obtain ⟨u₁, hleads, hscreens, happ⟩ := leads_feed hinput rfl hs trivial
      obtain ⟨u₂, hleads', hscreens', happ'⟩ := ih (happ ▸ hrun)
      exact ⟨u₂, hleads.trans hleads', hscreens'.trans hscreens, happ'⟩

/-- **The queues are emptied** under the screens. -/
theorem leads_drained (hshaped : (u.world.app c).Shaped) :
    ∃ u', Leads revoked c u u' ∧ u'.screens c = u.screens c ∧
      (u'.world.app c).queuedIds = [] ∧
      (u'.world.app c).postIds ~ (u.world.app c).postIds ++ (u.world.app c).queuedIds ∧
      App.SameSession (u.world.app c) (u'.world.app c) := by
  obtain ⟨is, t, hrun, hempty, hids, hsame⟩ := App.exists_deliveries (I := App.Shaped)
    (fun _ h => h.toFeedInv) (fun _ _ _ h hst => h.step (by rintro _ ⟨⟩) hst)
    (fun s o snap h ho hsnap => (h.queued o ho snap hsnap).fetchedPost.imp fun _ h => h.1)
    hshaped
  obtain ⟨u', hleads, hscreens, rfl⟩ := leads_deliveries hrun
  exact ⟨u', hleads, hscreens, hempty, hids, hsame⟩

/-- **A fresh feed** appears in a session once nothing is queued, and takes in the view. -/
theorem leads_shown (hshaped : (u.world.app c).Shaped)
    (hview : (u.world.app c).view = u.world.localView c)
    (hfront : (u.screens c).feedInFront = true)
    {uid : Uid} (huser : (u.world.app c).currentUser = some uid)
    (hempty : (u.world.app c).queuedIds = [])
    (hloaded : (u.world.app c).feed.postsLoaded = false) :
    ∃ u', Leads revoked c u u' ∧ (u'.screens c).feedInFront = true ∧
      (u'.world.app c).currentUser = some uid ∧
      (u'.world.app c).postIds ~ ((u.world.localView c).sub ["Posts"]).childKeys.map some := by
  have hinput : u.input c (.device (.feed .viewWillAppear)) =
      some (some (.feed .viewWillAppear), u.screens c) := by
    simp [input, ClientAction.ofForm, ClientAction.isTouch, Screens.after, huser]
  obtain ⟨u₁, hleads, hscreens, happ⟩ := leads_feed hinput rfl
    (App.step_eq_some.mpr rfl : (u.world.app c).step .viewWillAppear = _) trivial
  have hsub : (u.world.app c).Subscribes .viewWillAppear := ⟨by simp [huser], hloaded⟩
  rw [App.viewWillAppear_subscribing hshaped.toFeedInv hsub] at happ
  have hshaped₁ : (u₁.world.app c).Shaped := by
    rw [happ, ← App.viewWillAppear_subscribing hshaped.toFeedInv hsub]
    exact hshaped.step (a := .viewWillAppear) (by rintro _ ⟨⟩) rfl
  obtain ⟨u₂, hleads', hscreens', -, hids, hsame⟩ := leads_drained hshaped₁
  refine ⟨u₂, hleads.trans hleads', ?_, ?_, ?_⟩
  · rw [hscreens', hscreens]
    exact hfront
  · rw [hsame.currentUser, happ]
    exact huser
  · rw [← hview]
    refine hids.trans ?_
    -- the observers of before have nothing left, and the new one has the view
    have hqueued : (u₁.world.app c).queuedIds =
        ((u.world.app c).view.sub ["Posts"]).childKeys.map some := by
      rw [App.queuedIds] at hempty
      rw [happ, App.queuedIds, List.flatMap_append, hempty]
      simp [childSnapshots]
    have hnone : (u₁.world.app c).postIds = [] := by rw [happ, App.postIds, List.map_nil]
    rw [hqueued, hnone, List.nil_append]

/-- **No dead ends.** From every state that any number of devices with their screens can
reach, whatever was refused, lost or interrupted, whoever has an account can come on any
device by touches and replies to a feed that shows exactly the posts that the device sees,
whether or not the server detaches the observers of whoever logs out. Its process goes on, and
the database stays as it is. -/
theorem no_dead_end {as : List (ι × ScreenAction)} (hrun : machine.run initial as = some u)
    (revoked : Bool) (c : ι) {uid : Uid} (huid : uid ∈ u.world.accounts) :
    ∃ u', Leads revoked c u u' ∧ (u'.screens c).feedInFront = true ∧
      (u'.world.app c).currentUser = some uid ∧
      (u'.world.app c).postIds ~ ((u.world.localView c).sub ["Posts"]).childKeys.map some := by
  obtain ⟨u₁, hleads₁, hfree⟩ := leads_free revoked (spinnerInv_of_run hrun c)
  obtain ⟨u₂, hleads₂, htouch⟩ := leads_touchable hfree
  obtain ⟨u₃, hleads₃, htouch, hnew⟩ := leads_closed htouch
  have h₃ : Leads revoked c u u₃ := (hleads₁.trans hleads₂).trans hleads₃
  obtain ⟨u₄, hleads₄, hfront, huser⟩ := leads_signedIn htouch hnew (h₃.accounts_subset huid)
  -- the session is renewed, so that the feed subscribes again
  obtain ⟨u₅, hleads₅, hat, happ⟩ := leads_loggedOut hfront
  have h₅ : Leads revoked c u u₅ := (h₃.trans hleads₄).trans hleads₅
  obtain ⟨u₆, hleads₆, hfront, huser₆, -, hfeed⟩ := hat.leads_front (h₅.accounts_subset huid)
  have h₆ : Leads revoked c u u₆ := h₅.trans hleads₆
  have hloaded : (u₆.world.app c).feed.postsLoaded = false := by
    rw [hfeed, happ, App.logOut, if_pos rfl, App.endSession]
    split <;> rfl
  have hinv : ∀ {v : UI ι}, Leads revoked c u v →
      World.ShapeInv v.world ∧ World.Coherent v.world := by
    intro v hv
    obtain ⟨bs, hbs⟩ := hv.reachable hrun
    exact ⟨world_of_run (fun _ _ _ _ h hst => h.step hst) World.shapeInv_initial hbs,
      world_of_run (fun _ _ _ _ h hst => hst.coherent h) World.coherent_initial hbs⟩
  -- what the observers of before have queued must not come after that
  obtain ⟨u₇, hleads₇, hscreens, hempty, -, hsame⟩ := leads_drained ((hinv h₆).1.apps c)
  have h₇ : Leads revoked c u u₇ := h₆.trans hleads₇
  obtain ⟨u₈, hleads₈, hfront, huser₈, hids⟩ := leads_shown ((hinv h₇).1.apps c) ((hinv h₇).2 c)
    (hscreens ▸ hfront) (hsame.currentUser.trans huser₆) hempty (hsame.postsLoaded.trans hloaded)
  have hlocal : u₇.world.localView c = u.world.localView c := by
    obtain ⟨-, -, -, -, hdb⟩ := h₇
    rw [World.localView, World.localView, hdb]
  exact ⟨u₈, h₇.trans hleads₈, hfront, huser₈, hlocal ▸ hids⟩

end UI

/-! ### Under the spinner -/

namespace UI

attribute [local instance] Platform.reference

/-- Ann's upload is on its way. -/
theorem no_dead_end_submitted : ∃ u : UI ℕ, machine.run initial annSubmits = some u ∧
    (u.screens 0).touchable = false ∧ ∀ revoked, ∃ u', Leads revoked 0 u u' ∧
      (u'.screens 0).feedInFront = true ∧ (u'.world.app 0).currentUser = some "ann" := by
  have hrun : (machine.run (initial : UI ℕ) annSubmits).map (fun u =>
      ((u.screens 0).touchable, decide ("ann" ∈ u.world.accounts))) = some (false, true) := by
    decide
  obtain ⟨u, hu, hfacts⟩ := Option.map_eq_some_iff.mp hrun
  obtain ⟨htouch, haccount⟩ := Prod.mk.inj hfacts
  refine ⟨u, hu, htouch, fun revoked => ?_⟩
  obtain ⟨u', hleads, hfront, huser, -⟩ := no_dead_end hu revoked 0 (of_decide_eq_true haccount)
  exact ⟨u', hleads, hfront, huser⟩

end UI

end MDBSocials
