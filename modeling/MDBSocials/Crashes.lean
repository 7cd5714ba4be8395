import MDBSocials.FeedTable
import MDBSocials.PosterRecords

/-!
# What Ends the Process

The Swift code casts and unwraps by force wherever it reads something. This module says
which of these can fail in the runs in which no write is refused: there are nine ways, and
`Crash` lists them with the states in which they happen.

## Main results

* `Crash.of_error`: on sound data no action traps in another way.
* `traps_iff`: in every reachable state an action traps exactly when it is one of the nine.
-/

namespace MDBSocials

/-! ### Handlers on sound data -/

section Handlers

variable [Platform]

/-- A user without a record has no user name. -/
theorem userOfSnapshot_empty (id : Uid) : userOfSnapshot id .empty =
    .error (.forcedUnwrap "(value?[\"username\"] as? String)!") := rfl

theorem newPostWithImage_eq_error {currentUser : Option Uid} {submission : Submission}
    {trap : Trap} : newPostWithImage currentUser submission = .error trap ↔
      Platform.pngRepresentation submission.selectedImage = none ∧
        trap = .forcedUnwrap "UIImagePNGRepresentation(selectedImage)!" := by
  rw [newPostWithImage]
  cases Platform.pngRepresentation submission.selectedImage with
  | none => simp [bind, Except.bind, eq_comm]
  | some data => simp [bind, Except.bind, pure, Except.pure]

theorem Upload.succeeded_eq_error {u : Upload} {currentUser : Option Uid} {key : Key}
    {trap : Trap} :
    u.succeeded (some (Platform.downloadURL u.imageRef)) currentUser key = .error trap ↔
      currentUser = none ∧ trap = .forcedUnwrap "posterId!" := by
  cases currentUser with
  | none => simp [Upload.succeeded, newPost, bind, Except.bind, eq_comm]
  | some uid => simp [Upload.succeeded, newPost, bind, Except.bind, pure, Except.pure]

omit [Platform] in
theorem createNewUser_eq_error {currentUser : Option Uid} {name username email : String}
    {trap : Trap} : createNewUser currentUser name username email = .error trap ↔
      currentUser = none ∧ trap = .forcedUnwrap "getCurrentUser()!" := by
  cases currentUser with
  | none => simp [createNewUser, bind, Except.bind, eq_comm]
  | some uid => simp [createNewUser, bind, Except.bind, pure, Except.pure]

omit [Platform] in
/-- A user either has a record that can be decoded, or none. -/
theorem sub_user_cases (us : List Write) (uid : Uid) :
    (applyWrites .empty us).sub ["User", uid] = .empty ∨
      ∃ user, IsUser user ((applyWrites .empty us).sub ["User", uid]) := by
  by_cases h : ∃ w ∈ us, w.CreatesUser uid
  · exact Or.inr (isUser_applyWrites h)
  · exact Or.inl (sub_user_eq_empty fun w hw hcreates => h ⟨w, hw, hcreates⟩)

end Handlers

namespace World

variable [Platform] {ι : Type} [DecidableEq ι] {w w' : World ι} {c : ι} {a : ClientAction}

/-! ### The ways to crash -/

/-- The actions that trap, each in the states in which it does. -/
inductive Crash (w : World ι) (c : ι) : ClientAction → Trap → Prop
  /-- The table asks for a row that it loaded before the feed was emptied. -/
  | renderedStale {row : ℕ} {cell : CellRef} (hrow : row < (w.app c).feed.table.length)
      (hstale : (w.app c).feed.posts.length ≤ row) :
      Crash w c (.feed (.cellForRowAt row cell)) .indexOutOfRange
  | selectedStale {row : ℕ} (hrow : row < (w.app c).feed.table.length)
      (hstale : (w.app c).feed.posts.length ≤ row) :
      Crash w c (.feed (.didSelectRowAt row)) .indexOutOfRange
  /-- The poster has no record, at the server or on its way there from the device. -/
  | posterUnrecorded {q : UserRequest} (hq : q ∈ (w.app c).userRequests)
      (hnone : (w.answer c).sub ["User", q.posterId] = .empty) :
      Crash w c (.feed (.userReply q true))
        (.forcedUnwrap "(value?[\"username\"] as? String)!")
  /-- The detail screen appears before the name of the poster has arrived. -/
  | posterUnnamed {d : DetailViewController} (hd : (w.app c).detail = some d)
      (hname : ((w.app c).objects d.post).posterName = none) :
      Crash w c (.feed .detailWillAppear) (.forcedUnwrap "post.posterName!")
  /-- The session has ended under the detail screen. -/
  | tappedSignedOut {key : Key} {d : DetailViewController} (hkey : w.FreshKey key)
      (hd : (w.app c).detail = some d) (henabled : d.interestedButtonEnabled = true)
      (huser : (w.app c).currentUser = none) :
      Crash w c (.tappedInterested key) (.forcedUnwrap "(getCurrentUser()?.uid)!")
  | unencodable {submission : Submission}
      (hpng : Platform.pngRepresentation submission.selectedImage = none) :
      Crash w c (.newPostWithImage submission)
        (.forcedUnwrap "UIImagePNGRepresentation(selectedImage)!")
  /-- The session has ended during an upload. -/
  | uploadedSignedOut {i : ℕ} {key : Key} {u : Upload} (hkey : w.FreshKey key)
      (hu : (w.clients c).uploaded[i]? = some u) (huser : (w.app c).currentUser = none) :
      Crash w c (.uploadSucceeds i key) (.forcedUnwrap "posterId!")
  /-- Storage has no download URL for the picture. -/
  | lacksURL {i : ℕ} {u : Upload} (hu : (w.clients c).uploaded[i]? = some u) :
      Crash w c (.uploadLacksURL i) (.forcedUnwrap "metadata.downloadURL()!")
  /-- The session has ended before the completion of the sign-up. -/
  | signedUpSignedOut {i : ℕ} {user : NewUser} (hu : (w.clients c).signedUp[i]? = some user)
      (huser : (w.app c).currentUser = none) :
      Crash w c (.signUpSucceeds i) (.forcedUnwrap "getCurrentUser()!")

/-- An object that is held has the record of a post that some call wrote. -/
theorem held_record (hschema : SchemaInv w) (hcreated : CreatedInv w) {r : PostRef}
    (hr : (w.app c).Holds r) :
    ∃ (u : Upload) (uid : Uid) (key : Key),
      ((w.app c).objects r).record = (u.post uid).record key := by
  have hfaith := hschema.apps c
  obtain ⟨key, post, hpost, hrec⟩ := hfaith.objects r (hfaith.allocated r hr)
  obtain ⟨u, uid, -, rfl⟩ := hcreated.exists_call (Replica.issued_of_mem_viewSeq hpost)
  exact ⟨u, uid, key, hrec⟩

/-- A row that stands for a post is rendered. -/
theorem rendered_of_lt (hschema : SchemaInv w) (hcreated : CreatedInv w) {row : ℕ}
    (hrow : row < (w.app c).feed.posts.length) (cell : CellRef) :
    ∃ app, (w.app c).cellForRowAt row cell = .ok app := by
  obtain ⟨u, uid, key, hrec⟩ := held_record hschema hcreated (.ofPosts (List.getElem_mem hrow))
  exact App.cellForRowAt_ok cell (List.getElem?_eq_getElem hrow) (congrArg Post.imageUrl hrec)
    (Platform.referenceForURL_downloadURL u.imageRef) (congrArg Post.posterId hrec)
    (congrArg Post.id hrec)

/-- What `getInterestedUsers` reads of any post can be decoded. -/
theorem interestedUsers_ok (hschema : SchemaInv w) (postId : Key) :
    ∃ users, interestedUsers ((w.localView c).sub ["Posts", postId, "Interested"]) =
      .ok users := by
  by_cases hkey : postId ∈ ((w.localView c).sub ["Posts"]).children
  · obtain ⟨post, -, hrec⟩ := postsOf_applyWrites (hschema.views c) postId hkey
    have hinterests : Interests ((w.localView c).sub ["Posts", postId, "Interested"]) :=
      PathTree.sub_sub (w.localView c) ["Posts", postId] ["Interested"] ▸ hrec.interested
    exact ⟨_, hinterests.interestedUsers⟩
  · -- there is no such post, so nobody is listed
    have hempty : (w.localView c).sub ["Posts", postId, "Interested"] = .empty := by
      ext1 p
      have hnone : ¬ ∃ p, (((w.localView c).sub ["Posts"]).get (postId :: p)).isSome :=
        fun h => hkey (PathTree.mem_children.mpr h)
      by_contra hget
      exact hnone ⟨"Interested" :: p, Option.isSome_iff_ne_none.mpr hget⟩
    exact ⟨_, hempty ▸ Interests.empty.interestedUsers⟩

/-! ### Each action -/

/-- **The feed and the detail screen** trap in one of five ways. -/
theorem Crash.of_feed (hschema : SchemaInv w) (hcreated : CreatedInv w) {b : FeedAction}
    {trap : Trap} (h : w.perform c (.feed b) = some (.error trap)) :
    Crash w c (.feed b) trap := by
  obtain ⟨a', hinput, h⟩ := feed_eq_error.mp h
  have hdetail : ∀ d, (w.app c).detail = some d →
      ((w.app c).objects d.post).eventName ≠ none := by
    intro d hd hnone
    obtain ⟨u, uid, key, hrec⟩ := held_record hschema hcreated (.ofDetail hd)
    have hname : ((w.app c).objects d.post).eventName = some (u.post uid).name :=
      congrArg Post.eventName hrec
    rw [hnone] at hname
    cases hname
  cases b with
  | viewWillAppear | logOut | sessionLoss | tappedLogin =>
      obtain rfl := Option.some.inj hinput
      cases h
  | signInReply uid succeeded =>
      obtain ⟨-, hinput⟩ := Option.ite_none_right_eq_some.mp hinput
      obtain rfl := Option.some.inj hinput
      obtain ⟨-, h⟩ := Option.ite_none_right_eq_some.mp h
      cases h
  | deliver i =>
      obtain rfl := Option.some.inj hinput
      obtain ⟨⟨snap, app⟩, htake, h⟩ := Option.map_eq_some_iff.mp h
      rw [App.takeEvent] at htake
      split at htake
      · rename_i location snap' queue hi
        obtain ⟨rfl, -⟩ := Prod.mk.inj (Option.some.inj htake)
        obtain ⟨-, p, -, hp, -⟩ := (hschema.apps c).fetchedPost (List.mem_of_getElem? hi)
          (List.mem_cons_self (a := snap'))
        simp only [App.childAdded, hp] at h
        cases h
      · cases htake
  | cellForRowAt row cell =>
      obtain rfl := Option.some.inj hinput
      obtain ⟨hrow, h⟩ := Option.ite_none_right_eq_some.mp h
      by_cases hstale : (w.app c).feed.posts.length ≤ row
      · rw [App.cellForRowAt_stale hstale] at h
        obtain rfl := Except.error.inj (Option.some.inj h)
        exact .renderedStale hrow hstale
      · obtain ⟨app, happ⟩ := rendered_of_lt hschema hcreated (Nat.lt_of_not_le hstale) cell
        rw [happ] at h
        cases h
  | pictureReply q succeeded =>
      obtain rfl := Option.some.inj hinput
      obtain ⟨-, h⟩ := Option.ite_none_right_eq_some.mp h
      cases h
  | userReply q succeeded =>
      obtain rfl := Option.some.inj hinput
      obtain ⟨hq, h⟩ := Option.ite_none_right_eq_some.mp h
      have h := Option.some.inj h
      cases succeeded with
      | false => cases h
      | true =>
          rcases sub_user_cases (w.db.serverSeq ++ w.db.pending c) q.posterId with
            hnone | ⟨user, huser⟩
          · have hnode : (w.answer c).sub ["User", q.posterId] = .empty := hnone
            simp only [if_true, hnode, App.userReply, userOfSnapshot_empty] at h
            obtain rfl := Except.error.inj h
            exact .posterUnrecorded hq hnode
          · have hnode := IsUser.userOfSnapshot (t := (w.answer c).sub ["User", q.posterId])
              huser q.posterId
            simp only [if_true, App.userReply, hnode] at h
            cases h
  | interestedReply q =>
      obtain rfl := Option.some.inj hinput
      obtain ⟨-, h⟩ := Option.ite_none_right_eq_some.mp h
      obtain ⟨users, husers⟩ := interestedUsers_ok (c := c) hschema q.postId
      simp only [App.interestedReply, husers] at h
      cases h
  | didSelectRowAt row =>
      obtain rfl := Option.some.inj hinput
      obtain ⟨hrow, h⟩ := Option.ite_none_right_eq_some.mp h
      rw [App.didSelectRowAt] at h
      split at h
      · rename_i hnone
        obtain rfl := Except.error.inj (Option.some.inj h)
        exact .selectedStale hrow (List.getElem?_eq_none_iff.mp hnone)
      · cases h
  | detailWillAppear =>
      obtain rfl := Option.some.inj hinput
      obtain ⟨d, hd, h⟩ := Option.map_eq_some_iff.mp h
      obtain ⟨title, htitle⟩ := Option.ne_none_iff_exists'.mp (hdetail d hd)
      cases hname : ((w.app c).objects d.post).posterName with
      | none =>
          rw [App.detailWillAppear_unnamed htitle hname] at h
          obtain rfl := Except.error.inj h
          exact .posterUnnamed hd hname
      | some posterName =>
          obtain ⟨app, happ⟩ := App.detailWillAppear_ok htitle hname
          rw [happ] at h
          cases h

/-- **No other action** traps but in one of the ways of `Crash`. -/
theorem Crash.of_error (hschema : SchemaInv w) (hcreated : CreatedInv w) {trap : Trap}
    (h : w.perform c a = some (.error trap)) : Crash w c a trap := by
  cases a with
  | feed b => exact .of_feed hschema hcreated h
  | tappedInterested key =>
      obtain ⟨d, hd, h⟩ := Option.bind_eq_some_iff.mp h
      obtain ⟨⟨hkey, henabled⟩, h⟩ := Option.ite_none_right_eq_some.mp h
      have h := Option.some.inj h
      obtain ⟨u, uid, postId, hrec⟩ := held_record hschema hcreated (.ofDetail hd)
      have hid : ((w.app c).objects d.post).id = some postId := congrArg Post.id hrec
      cases happ : (w.app c).tappedInterested d key with
      | ok r =>
          rw [happ] at h
          cases h
      | error trap' =>
          rw [happ] at h
          obtain rfl : trap' = trap := Except.error.inj h
          obtain rfl := App.tappedInterested_error hid happ
          refine .tappedSignedOut hkey hd henabled ?_
          by_contra huser
          obtain ⟨userId, huser⟩ := Option.ne_none_iff_exists'.mp huser
          obtain ⟨r, hr⟩ := App.tappedInterested_ok hid huser key
          rw [happ] at hr
          cases hr
  | newPostWithImage submission =>
      have h := Option.some.inj h
      cases hu : MDBSocials.newPostWithImage (w.app c).currentUser submission with
      | ok u =>
          rw [hu] at h
          cases h
      | error trap' =>
          rw [hu] at h
          obtain rfl : trap' = trap := Except.error.inj h
          obtain ⟨hpng, rfl⟩ := newPostWithImage_eq_error.mp hu
          exact .unencodable hpng
  | uploadSucceeds i key =>
      obtain ⟨hkey, h⟩ := Option.ite_none_right_eq_some.mp h
      obtain ⟨u, hu, h⟩ := Option.map_eq_some_iff.mp h
      cases hwrite :
          u.succeeded (some (Platform.downloadURL u.imageRef)) (w.app c).currentUser key with
      | ok write =>
          rw [hwrite] at h
          cases h
      | error trap' =>
          rw [hwrite] at h
          obtain rfl : trap' = trap := Except.error.inj h
          obtain ⟨huser, rfl⟩ := Upload.succeeded_eq_error.mp hwrite
          exact .uploadedSignedOut hkey hu huser
  | uploadLacksURL i =>
      obtain ⟨u, hu, h⟩ := Option.map_eq_some_iff.mp h
      obtain rfl := Except.error.inj h
      exact .lacksURL hu
  | signUpSucceeds i =>
      obtain ⟨user, hu, h⟩ := Option.map_eq_some_iff.mp h
      cases hwrite : createNewUser (w.app c).currentUser user.name user.username user.email with
      | ok write =>
          rw [hwrite] at h
          cases h
      | error trap' =>
          rw [hwrite] at h
          obtain rfl : trap' = trap := Except.error.inj h
          obtain ⟨huser, rfl⟩ := createNewUser_eq_error.mp hwrite
          exact .signedUpSignedOut hu huser
  | accountCreated i uid =>
      obtain ⟨-, h⟩ := Option.ite_none_left_eq_some.mp h
      obtain ⟨user, -, h⟩ := Option.map_eq_some_iff.mp h
      cases h
  | signUp user | terminate => cases h
  | pictureStored | uploadFails | uploadReplyLost | signUpFails | arrive | reject | sync =>
      obtain ⟨x, -, h⟩ := Option.map_eq_some_iff.mp h
      cases h

/-- The ways of `Crash` do trap. -/
theorem Crash.error {trap : Trap} (h : Crash w c a trap) (hschema : SchemaInv w)
    (hcreated : CreatedInv w) : w.perform c a = some (.error trap) := by
  cases h with
  | renderedStale hrow hstale =>
      refine feed_eq_error.mpr ⟨_, rfl, ?_⟩
      simp only [App.perform, if_pos hrow, App.cellForRowAt_stale hstale]
  | selectedStale hrow hstale =>
      refine feed_eq_error.mpr ⟨_, rfl, ?_⟩
      simp only [App.perform, if_pos hrow, App.didSelectRowAt, List.getElem?_eq_none hstale]
  | posterUnrecorded hq hnone =>
      refine feed_eq_error.mpr ⟨_, rfl, ?_⟩
      simp only [App.perform, if_pos hq, if_true, hnone, App.userReply, userOfSnapshot_empty]
      rfl
  | posterUnnamed hd hname =>
      obtain ⟨u, uid, key, hrec⟩ := held_record hschema hcreated (.ofDetail hd)
      refine feed_eq_error.mpr ⟨_, rfl, ?_⟩
      simp only [App.perform, hd, Option.map_some]
      exact congrArg some (App.detailWillAppear_unnamed (congrArg Post.eventName hrec) hname)
  | tappedSignedOut hkey hd henabled huser =>
      obtain ⟨u, uid, postId, hrec⟩ := held_record hschema hcreated (.ofDetail hd)
      have hid : ((w.app c).objects _).id = some postId := congrArg Post.id hrec
      simp only [perform, hd, Option.bind_some, hkey, henabled, and_self, if_true,
        App.tappedInterested, hid, huser]
      rfl
  | unencodable hpng =>
      simp only [perform, newPostWithImage_eq_error.mpr ⟨hpng, rfl⟩]
      rfl
  | uploadedSignedOut hkey hu huser =>
      simp only [perform, if_pos hkey, hu, Option.map_some,
        Upload.succeeded_eq_error.mpr ⟨huser, rfl⟩]
      rfl
  | lacksURL hu =>
      simp only [perform, hu, Option.map_some]
      rfl
  | signedUpSignedOut hu huser =>
      simp only [perform, hu, Option.map_some, createNewUser_eq_error.mpr ⟨huser, rfl⟩]
      rfl

/-- **The application traps in nine ways only.** In every state that any number of devices
can reach without a refused write, an action traps if and only if it is one of these: the
table asks for or selects a row it loaded before the feed was emptied; the reply about a
poster without a record arrives; the detail screen appears before the name of the poster;
the session has ended when the interested button is tapped, when an upload completes, or
when a sign-up completes; or a picture has no PNG representation, or no download URL. -/
theorem traps_iff {as : List (ι × ClientAction)} (hrun : accepted.run initial as = some w)
    {trap : Trap} : w.perform c a = some (.error trap) ↔ Crash w c a trap := by
  obtain ⟨hschema, hcreated⟩ := invariants_of_run hrun
  exact ⟨.of_error hschema hcreated, fun h => h.error hschema hcreated⟩

end World

/-! ### A session that ends during an upload -/

namespace World

attribute [local instance] Platform.reference

theorem traps_iff_signed_out :
    ∃ w : World ℕ, accepted.run initial (annSignsUp ++
        [(0, .newPostWithImage ⟨⟨[1]⟩, "Party", "at nine", "Feb 21, 9:00 PM"⟩),
          (0, .pictureStored 0), (0, .feed (.sessionLoss false))]) = some w ∧
      w.perform 0 (.uploadSucceeds 0 "-L0") = some (.error (.forcedUnwrap "posterId!")) := by
  have hrun : (accepted.run (initial : World ℕ) (annSignsUp ++
      [(0, .newPostWithImage ⟨⟨[1]⟩, "Party", "at nine", "Feb 21, 9:00 PM"⟩),
        (0, .pictureStored 0), (0, .feed (.sessionLoss false))])).map (fun w =>
          (decide (w.FreshKey "-L0"), (w.clients 0).uploaded[0]?.isSome,
            (w.app 0).currentUser)) = some (true, true, none) := by decide
  obtain ⟨w, hw, hfacts⟩ := Option.map_eq_some_iff.mp hrun
  simp only [Prod.mk.injEq, decide_eq_true_eq] at hfacts
  obtain ⟨hkey, huploaded, huser⟩ := hfacts
  obtain ⟨u, hu⟩ := Option.isSome_iff_exists.mp huploaded
  exact ⟨w, hw, (traps_iff hw).mpr (.uploadedSignedOut hkey hu huser)⟩

end World

end MDBSocials
