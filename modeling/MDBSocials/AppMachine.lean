import MDBSocials.App
import MDBSocials.Lib.Machine

/-!
# The Application as a Machine

The runs of one application: its users' actions, the completions of its requests, and
what reaches it from the network. `perform` says what an action does, which may be to
trap; `step` is the state after it, and there is none where the process has ended.

The actions that concern the feed's subscription are few. `step_sameFeed` says that all
others leave it alone, and `step_feed` says all that a step can do to it, so that the
invariants of the subscription need not look at the handlers again. `step_objects` says that
most actions write to no `Post` object.
-/

namespace MDBSocials

/-- What can happen to a running application. -/
inductive Action
  | viewWillAppear
  | logOut (signOut revoked : Bool)
  | sessionLoss (revoked : Bool)
  | tappedLogin (uid : Uid)
  | signInReply (uid : Uid) (succeeded : Bool)
  | userCreated (uid : Uid)
  | viewChanged (view : Node)
  | deliver (observer : ℕ)
  | cellForRowAt (row : ℕ) (cell : CellRef)
  | pictureReply (request : PictureRequest) (data : Option Data)
  | userReply (request : UserRequest) (node : Option Node)
  | interestedReply (request : InterestedRequest) (node : Node)
  | didSelectRowAt (row : ℕ)
  | detailWillAppear
  | tappedInterested (key : Key)

namespace App

variable [Platform]

/-- What an action does, `none` when it cannot happen: the table asks only for rows it
has loaded, a completion runs once, and a button is tapped only while it is enabled. -/
def perform (s : App) : Action → Option (Except Trap App)
  | .viewWillAppear => some (.ok s.viewWillAppear)
  | .logOut signOut revoked => some (.ok (s.logOut signOut revoked))
  | .sessionLoss revoked => some (.ok (s.endSession revoked))
  | .tappedLogin uid => some (.ok (s.tappedLogin uid))
  | .signInReply uid succeeded =>
      if uid ∈ s.signIns then some (.ok (s.signInReply uid succeeded)) else none
  | .userCreated uid => some (.ok (s.userCreated uid))
  | .viewChanged view => some (.ok (s.viewChanged view))
  | .deliver i => (s.takeEvent i).map fun e => e.2.childAdded e.1
  | .cellForRowAt row cell =>
      if row < s.feed.table.length then some (s.cellForRowAt row cell) else none
  | .pictureReply q data =>
      if q ∈ s.pictureRequests then some (.ok (s.pictureReply q data)) else none
  | .userReply q node => if q ∈ s.userRequests then some (s.userReply q node) else none
  | .interestedReply q node =>
      if q ∈ s.interestedRequests then some (s.interestedReply q node) else none
  | .didSelectRowAt row =>
      if row < s.feed.table.length then some (s.didSelectRowAt row) else none
  | .detailWillAppear => s.detail.map fun d => s.detailWillAppear d
  | .tappedInterested key => s.detail.bind fun d =>
      if d.interestedButtonEnabled then some ((s.tappedInterested d key).map Prod.snd)
      else none

/-- The state after an action, `none` when it cannot happen or ends the process. -/
def step (s : App) (a : Action) : Option App := (s.perform a).bind Except.toOption

theorem step_eq_some {s t : App} {a : Action} :
    s.step a = some t ↔ s.perform a = some (.ok t) := by
  simp [step, Option.bind_eq_some_iff, toOption_eq_some]

/-- A tap on the enabled button is a step. -/
theorem step_of_tap {s t : App} {d : DetailViewController} {key : Key} {write : Write}
    (hd : s.detail = some d) (henabled : d.interestedButtonEnabled = true)
    (h : s.tappedInterested d key = .ok (write, t)) :
    s.step (.tappedInterested key) = some t := by
  refine step_eq_some.mpr ?_
  simp [perform, hd, henabled, h, Except.map]

/-- The runs of one application in whatever environment. -/
def machine : Machine App Action where
  step := step

end App

/-- The actions that concern the subscription of the feed. -/
def Action.concernsFeed : Action → Bool
  | .viewWillAppear | .logOut .. | .sessionLoss .. | .signInReply .. | .userCreated ..
  | .viewChanged .. | .deliver .. => true
  | _ => false

/-- The actions that make a `Post` object or write to one. -/
def Action.writesObjects : Action → Bool
  | .deliver .. | .pictureReply _ (some _) | .userReply _ (some _) | .tappedInterested .. => true
  | _ => false

/-- A reference to a `Post` object is held: by the feed, by the row of a cell, by a
request, or by the detail screen. -/
def App.Holds (s : App) (r : PostRef) : Prop :=
  r ∈ s.feed.posts ∨ (∃ c, s.bound c = some r) ∨
    (∃ q ∈ s.pictureRequests, q.post = r) ∨ (∃ q ∈ s.userRequests, q.post = r) ∨
    ∃ d, s.detail = some d ∧ d.post = r

namespace App.Holds

variable {s t : App} {r : PostRef}

theorem ofPosts (h : r ∈ s.feed.posts) : s.Holds r := Or.inl h

theorem ofBound {c : CellRef} (h : s.bound c = some r) : s.Holds r := Or.inr (Or.inl ⟨c, h⟩)

theorem ofPicture {q : PictureRequest} (h : q ∈ s.pictureRequests) : s.Holds q.post :=
  Or.inr (Or.inr (Or.inl ⟨q, h, rfl⟩))

theorem ofUser {q : UserRequest} (h : q ∈ s.userRequests) : s.Holds q.post :=
  Or.inr (Or.inr (Or.inr (Or.inl ⟨q, h, rfl⟩)))

theorem ofDetail {d : DetailViewController} (h : s.detail = some d) : s.Holds d.post :=
  Or.inr (Or.inr (Or.inr (Or.inr ⟨d, h, rfl⟩)))

/-- A state holds what another does when it holds the references of each kind. -/
theorem imp (posts : ∀ r ∈ t.feed.posts, s.Holds r)
    (bound : ∀ c r, t.bound c = some r → s.Holds r)
    (pictures : ∀ q ∈ t.pictureRequests, s.Holds q.post)
    (users : ∀ q ∈ t.userRequests, s.Holds q.post)
    (detail : ∀ d, t.detail = some d → s.Holds d.post) (r : PostRef) (h : t.Holds r) :
    s.Holds r := by
  rcases h with h | ⟨c, h⟩ | ⟨q, h, rfl⟩ | ⟨q, h, rfl⟩ | ⟨d, h, rfl⟩
  · exact posts r h
  · exact bound c r h
  · exact pictures q h
  · exact users q h
  · exact detail d h

end App.Holds

/-- Two states with the same feed, observers, view and session, in which every `Post`
object has the same record, and the later of which holds no other references. -/
structure SameFeed (s t : App) : Prop where
  currentUser : t.currentUser = s.currentUser
  view : t.view = s.view
  observers : t.observers = s.observers
  posts : t.feed.posts = s.feed.posts
  postsLoaded : t.feed.postsLoaded = s.feed.postsLoaded
  table : t.feed.table = s.feed.table
  nextRef : t.nextRef = s.nextRef
  records : ∀ r, (t.objects r).record = (s.objects r).record
  holds : ∀ r, t.Holds r → s.Holds r

theorem App.postIds_congr {s t : App} (hposts : t.feed.posts = s.feed.posts)
    (hrecords : ∀ r, (t.objects r).record = (s.objects r).record) : t.postIds = s.postIds := by
  rw [App.postIds, App.postIds, hposts]
  exact List.map_congr_left fun r _ => (congrArg Post.id (hrecords r) :)

namespace SameFeed

theorem trans {s t u : App} (h : SameFeed s t) (h' : SameFeed t u) : SameFeed s u :=
  ⟨h'.1.trans h.1, h'.2.trans h.2, h'.3.trans h.3, h'.4.trans h.4, h'.5.trans h.5,
    h'.6.trans h.6, h'.7.trans h.7, fun r => (h'.8 r).trans (h.8 r),
    fun r => h.9 r ∘ h'.9 r⟩

theorem postIds {s t : App} (h : SameFeed s t) : t.postIds = s.postIds :=
  App.postIds_congr h.posts h.records

theorem modifyPost (s : App) (r : PostRef) {f : Post → Post}
    (hf : ∀ post, (f post).record = post.record) : SameFeed s (s.modifyPost r f) := by
  refine ⟨rfl, rfl, rfl, rfl, rfl, rfl, rfl, fun r' => ?_, fun _ => id⟩
  by_cases hr : r' = r
  · subst hr
    simp [App.modifyPost, hf]
  · simp [App.modifyPost, hr]

theorem modifyCell (s : App) (c : CellRef) (f : FeedTableViewCell → FeedTableViewCell) :
    SameFeed s (s.modifyCell c f) :=
  ⟨rfl, rfl, rfl, rfl, rfl, rfl, rfl, fun _ => rfl, fun _ => id⟩

end SameFeed

/-! ### The actions of the feed -/

/-- A new process: nothing but the persisted session and what the SDK knows of the
database. -/
def App.launch (currentUser : Option Uid) (view : Node) : App := { currentUser, view }

namespace App

/-- `viewWillAppear` takes its subscribing branch. -/
def Subscribes (s : App) : Action → Prop
  | .viewWillAppear => s.currentUser ≠ none ∧ s.feed.postsLoaded = false
  | _ => False

instance (s : App) (a : Action) : Decidable (s.Subscribes a) := by
  rcases a <;> dsimp only [Subscribes] <;> infer_instance

/-- A `viewWillAppear` that does not subscribe leaves the subscription and the posts alone;
it unloads the feed when nobody is signed in. -/
theorem viewWillAppear_otherwise {s : App} (h : ¬ s.Subscribes .viewWillAppear) :
    s.viewWillAppear.currentUser = s.currentUser ∧
    s.viewWillAppear.view = s.view ∧
    s.viewWillAppear.observers = s.observers ∧
    s.viewWillAppear.feed.posts = s.feed.posts ∧
    s.viewWillAppear.objects = s.objects ∧
    s.viewWillAppear.nextRef = s.nextRef ∧
    (s.viewWillAppear.feed.postsLoaded = true →
      s.feed.postsLoaded = true ∧ s.currentUser ≠ none) := by
  rw [viewWillAppear]
  by_cases hu : s.currentUser = none
  · simp [hu]
  · have hl : s.feed.postsLoaded = true := by
      by_contra hl
      exact h ⟨hu, Bool.not_eq_true _ ▸ hl⟩
    simp [hu, hl, reloadData]

theorem viewWillAppear_heap (s : App) :
    s.viewWillAppear.objects = s.objects ∧ s.viewWillAppear.nextRef = s.nextRef ∧
      s.viewWillAppear.view = s.view := by
  rw [viewWillAppear]
  split
  · exact ⟨rfl, rfl, rfl⟩
  · split <;> exact ⟨rfl, rfl, rfl⟩

/-- The end of a session detaches all observers or none. -/
theorem endSession_frame (s : App) (revoked : Bool) :
    (s.endSession revoked).feed = s.feed ∧ (s.endSession revoked).view = s.view ∧
    (s.endSession revoked).objects = s.objects ∧
    (s.endSession revoked).nextRef = s.nextRef ∧
    (s.endSession revoked).currentUser = none ∧
    ((s.endSession revoked).observers = s.observers ∨
      (s.endSession revoked).observers = []) := by
  rw [endSession]
  by_cases hu : s.currentUser = none
  · simp [hu]
  · cases revoked <;> simp [hu]

theorem logOut_frame (s : App) (signOut revoked : Bool) :
    (s.logOut signOut revoked).feed = { s.feed with postsLoaded := false } ∧
    (s.logOut signOut revoked).view = s.view ∧
    (s.logOut signOut revoked).objects = s.objects ∧
    (s.logOut signOut revoked).nextRef = s.nextRef ∧
    ((s.logOut signOut revoked).observers = s.observers ∨
      (s.logOut signOut revoked).observers = []) := by
  cases signOut with
  | false => exact ⟨rfl, rfl, rfl, rfl, Or.inl rfl⟩
  | true =>
      obtain ⟨hfeed, hview, hobj, hnext, -, hobs⟩ :=
        endSession_frame { s with feed.postsLoaded := false } revoked
      exact ⟨hfeed, hview, hobj, hnext, hobs⟩

/-- What the actions keep that neither fill the feed nor empty it: they detach all
observers or none, and may reload the table. -/
structure KeptFeed (s t : App) : Prop where
  posts : t.feed.posts = s.feed.posts
  table : t.feed.table = s.feed.table ∨ t.feed.table = t.feed.posts
  view : t.view = s.view
  observers : t.observers = s.observers ∨ t.observers = []
  records : ∀ r, (t.objects r).record = (s.objects r).record
  nextRef : t.nextRef = s.nextRef

theorem KeptFeed.postIds {s t : App} (h : KeptFeed s t) : t.postIds = s.postIds :=
  postIds_congr h.posts h.records

theorem KeptFeed.observers_subset {s t : App} (h : KeptFeed s t) :
    t.observers ⊆ s.observers := by
  rcases h.observers with hobs | hobs <;> simp [hobs]

theorem keptFeed_viewWillAppear {s : App} (h : ¬ s.Subscribes .viewWillAppear) :
    KeptFeed s s.viewWillAppear := by
  obtain ⟨-, hview, hobs, hposts, hobj, hnext, -⟩ := viewWillAppear_otherwise h
  refine ⟨hposts, ?_, hview, Or.inl hobs, fun r => by rw [hobj], hnext⟩
  rw [viewWillAppear]
  split
  · exact Or.inl rfl
  · rename_i huser
    rw [if_neg fun hl => h ⟨huser, hl⟩]
    exact Or.inr rfl

theorem keptFeed_endSession (s : App) (revoked : Bool) : KeptFeed s (s.endSession revoked) := by
  obtain ⟨hfeed, hview, hobj, hnext, -, hobs⟩ := endSession_frame s revoked
  exact ⟨by rw [hfeed], Or.inl (by rw [hfeed]), hview, hobs, fun r => by rw [hobj], hnext⟩

theorem keptFeed_logOut (s : App) (signOut revoked : Bool) :
    KeptFeed s (s.logOut signOut revoked) := by
  obtain ⟨hfeed, hview, hobj, hnext, hobs⟩ := logOut_frame s signOut revoked
  exact ⟨by rw [hfeed], Or.inl (by rw [hfeed]), hview, hobs, fun r => by rw [hobj], hnext⟩

/-! ### References -/

/-- Every reference that is held is that of an allocated object. -/
def Allocated (s : App) : Prop := ∀ r, s.Holds r → r < s.nextRef

theorem allocated_launch (u : Option Uid) (view : Node) : (launch u view).Allocated := by
  rintro r (h | ⟨c, h⟩ | ⟨q, h, -⟩ | ⟨q, h, -⟩ | ⟨d, h, -⟩) <;> cases h

theorem holds_viewWillAppear {s : App} {r : PostRef} (h : s.viewWillAppear.Holds r) :
    s.Holds r := by
  rw [viewWillAppear] at h
  split at h
  · exact h
  · split at h
    · rcases h with h | h
      · cases h
      · exact Or.inr h
    · rcases h with h | ⟨c, h⟩ | h
      · exact Or.inl h
      · cases h
      · exact Or.inr (Or.inr h)

theorem holds_endSession {s : App} {revoked : Bool} {r : PostRef}
    (h : (s.endSession revoked).Holds r) : s.Holds r := by
  rw [endSession] at h
  split at h <;> exact h

/-! ### Handlers that leave the objects alone -/

theorem loadPosterName_objects {s t : App} {r : PostRef} {c : CellRef}
    (h : s.loadPosterName r c = .ok t) : t.objects = s.objects := by
  rw [loadPosterName] at h
  split at h
  · obtain ⟨posterId, -, h⟩ := bind_eq_ok.mp h
    exact Except.ok.inj h ▸ rfl
  · exact Except.ok.inj h ▸ rfl

theorem loadInterested_objects {s t : App} {r : PostRef} {c : CellRef}
    (h : s.loadInterested r c = .ok t) : t.objects = s.objects := by
  obtain ⟨postId, -, h⟩ := bind_eq_ok.mp h
  exact Except.ok.inj h ▸ rfl

theorem didSelectRowAt_objects {s t : App} {row : ℕ} (h : s.didSelectRowAt row = .ok t) :
    t.objects = s.objects := by
  rw [didSelectRowAt] at h
  split at h
  · cases h
  · exact Except.ok.inj h ▸ rfl

/-! ### Actions that leave the feed alone -/

theorem sameFeed_loadPosterName {s t : App} {r : PostRef} {c : CellRef} (hr : s.Holds r)
    (h : s.loadPosterName r c = .ok t) : SameFeed s t := by
  rw [loadPosterName] at h
  split at h
  · obtain ⟨posterId, -, h⟩ := bind_eq_ok.mp h
    obtain rfl := Except.ok.inj h
    refine ⟨rfl, rfl, rfl, rfl, rfl, rfl, rfl, fun _ => rfl,
      Holds.imp (fun _ h => .ofPosts h) (fun _ _ h => .ofBound h) (fun _ h => .ofPicture h)
        (fun q hq => ?_) (fun _ h => .ofDetail h)⟩
    rcases List.mem_append.mp hq with hq | hq
    · exact .ofUser hq
    · exact List.mem_singleton.mp hq ▸ hr
  · obtain rfl := Except.ok.inj h
    exact .modifyCell s c _

theorem sameFeed_loadInterested {s t : App} {r : PostRef} {c : CellRef}
    (h : s.loadInterested r c = .ok t) : SameFeed s t := by
  obtain ⟨postId, -, h⟩ := bind_eq_ok.mp h
  obtain rfl := Except.ok.inj h
  exact ⟨rfl, rfl, rfl, rfl, rfl, rfl, rfl, fun _ => rfl, fun _ => id⟩

theorem sameFeed_didSelectRowAt {s t : App} {row : ℕ} (h : s.didSelectRowAt row = .ok t) :
    SameFeed s t := by
  rw [didSelectRowAt] at h
  split at h
  · cases h
  · rename_i r hr
    obtain rfl := Except.ok.inj h
    refine ⟨rfl, rfl, rfl, rfl, rfl, rfl, rfl, fun _ => rfl,
      Holds.imp (fun _ h => .ofPosts h) (fun _ _ h => .ofBound h) (fun _ h => .ofPicture h)
        (fun _ h => .ofUser h) (fun d hd => ?_)⟩
    obtain rfl := Option.some.inj hd
    exact .ofPosts (List.mem_of_getElem? hr)

theorem sameFeed_awakeCell {s : App} {r : PostRef} (hr : s.Holds r) (c : CellRef) :
    SameFeed s (s.awakeCell r c) := by
  refine ⟨rfl, rfl, rfl, rfl, rfl, rfl, rfl, fun _ => rfl,
    Holds.imp (fun _ h => .ofPosts h) (fun c' r' hc' => ?_) (fun _ h => .ofPicture h)
      (fun _ h => .ofUser h) (fun _ h => .ofDetail h)⟩
  by_cases hcc : c' = c
  · simp only [awakeCell, hcc, Function.update_self] at hc'
    exact Option.some.inj hc' ▸ hr
  · simp only [awakeCell, Function.update_of_ne hcc] at hc'
    exact .ofBound hc'

theorem sameFeed_erasePicture (s : App) (q : PictureRequest) :
    SameFeed s { s with pictureRequests := s.pictureRequests.erase q } :=
  ⟨rfl, rfl, rfl, rfl, rfl, rfl, rfl, fun _ => rfl,
    Holds.imp (fun _ h => .ofPosts h) (fun _ _ h => .ofBound h)
      (fun _ hq => .ofPicture (List.mem_of_mem_erase hq)) (fun _ h => .ofUser h)
      (fun _ h => .ofDetail h)⟩

theorem sameFeed_eraseUser (s : App) (q : UserRequest) :
    SameFeed s { s with userRequests := s.userRequests.erase q } :=
  ⟨rfl, rfl, rfl, rfl, rfl, rfl, rfl, fun _ => rfl,
    Holds.imp (fun _ h => .ofPosts h) (fun _ _ h => .ofBound h) (fun _ h => .ofPicture h)
      (fun _ hq => .ofUser (List.mem_of_mem_erase hq)) (fun _ h => .ofDetail h)⟩

/-- A new state of the detail screen for the same post. -/
theorem sameFeed_detail (s : App) {d d' : DetailViewController} (hd : s.detail = some d)
    (hpost : d'.post = d.post) : SameFeed s { s with detail := some d' } := by
  refine ⟨rfl, rfl, rfl, rfl, rfl, rfl, rfl, fun _ => rfl,
    Holds.imp (fun _ h => .ofPosts h) (fun _ _ h => .ofBound h) (fun _ h => .ofPicture h)
      (fun _ h => .ofUser h) (fun e he => ?_)⟩
  obtain rfl := Option.some.inj he
  exact hpost ▸ .ofDetail hd

@[simp] theorem setInterestedButtonState_post (s : App) (d : DetailViewController) :
    (s.setInterestedButtonState d).post = d.post := by
  simp only [setInterestedButtonState]
  split <;> rfl

/-- What a tap on the button does: the write, and the object's list of users. -/
theorem tappedInterested_eq_ok {s t : App} {d : DetailViewController} {key : Key}
    {write : Write} (h : s.tappedInterested d key = .ok (write, t)) :
    ∃ postId userId count, (s.objects d.post).id = some postId ∧
      s.currentUser = some userId ∧ write = .updateInterested postId key userId ∧
      t = { s.appendInterested d.post userId with
            detail := some (markInterested d count) } := by
  obtain ⟨postId, hid, h⟩ := bind_eq_ok.mp h
  obtain ⟨userId, huser, h⟩ := bind_eq_ok.mp h
  obtain ⟨rfl, rfl⟩ := Prod.mk.inj (Except.ok.inj h)
  exact ⟨postId, userId, _, forceUnwrap_eq_ok.mp hid, forceUnwrap_eq_ok.mp huser, rfl, rfl⟩

/-- A tap on the button of a post with an id runs to its end in a session. -/
theorem tappedInterested_ok {s : App} {d : DetailViewController} {postId : Key} {userId : Uid}
    (hid : (s.objects d.post).id = some postId) (huser : s.currentUser = some userId)
    (key : Key) : ∃ r, s.tappedInterested d key = .ok r :=
  ⟨_, bind_eq_ok.mpr ⟨postId, forceUnwrap_eq_ok.mpr hid,
    bind_eq_ok.mpr ⟨userId, forceUnwrap_eq_ok.mpr huser, rfl⟩⟩⟩

theorem sameFeed_tappedInterested {s t : App} {d : DetailViewController} {key : Key}
    {write : Write} (hd : s.detail = some d)
    (h : s.tappedInterested d key = .ok (write, t)) : SameFeed s t := by
  obtain ⟨_, userId, _, -, -, -, rfl⟩ := tappedInterested_eq_ok h
  have happend : SameFeed s (s.appendInterested d.post userId) :=
    .modifyPost s d.post fun _ => rfl
  exact happend.trans (sameFeed_detail _ hd rfl)

variable [Platform]

theorem loadPicture_objects {s t : App} {r : PostRef} {c : CellRef}
    (h : s.loadPicture r c = .ok t) : t.objects = s.objects := by
  rw [loadPicture] at h
  split at h
  · obtain ⟨url, -, h⟩ := bind_eq_ok.mp h
    split at h
    · cases h
    · exact Except.ok.inj h ▸ rfl
  · exact Except.ok.inj h ▸ rfl

theorem cellForRowAt_objects {s t : App} {row : ℕ} {c : CellRef}
    (h : s.cellForRowAt row c = .ok t) : t.objects = s.objects := by
  rw [cellForRowAt] at h
  split at h
  · cases h
  · rename_i r _
    obtain ⟨s₁, h₁, h⟩ := bind_eq_ok.mp h
    obtain ⟨s₂, h₂, h₃⟩ := bind_eq_ok.mp h
    have hpicture : s₁.objects = (s.awakeCell r c).objects := loadPicture_objects h₁
    have hname := loadPosterName_objects h₂
    exact (loadInterested_objects h₃).trans (hname.trans hpicture)

theorem sameFeed_loadPicture {s t : App} {r : PostRef} {c : CellRef} (hr : s.Holds r)
    (h : s.loadPicture r c = .ok t) : SameFeed s t := by
  rw [loadPicture] at h
  split at h
  · obtain ⟨url, -, h⟩ := bind_eq_ok.mp h
    split at h
    · cases h
    · obtain rfl := Except.ok.inj h
      refine ⟨rfl, rfl, rfl, rfl, rfl, rfl, rfl, fun _ => rfl,
        Holds.imp (fun _ h => .ofPosts h) (fun _ _ h => .ofBound h) (fun q hq => ?_)
          (fun _ h => .ofUser h) (fun _ h => .ofDetail h)⟩
      rcases List.mem_append.mp hq with hq | hq
      · exact .ofPicture hq
      · exact List.mem_singleton.mp hq ▸ hr
  · obtain rfl := Except.ok.inj h
    exact .modifyCell s c _

theorem sameFeed_cellForRowAt {s t : App} {row : ℕ} {c : CellRef}
    (h : s.cellForRowAt row c = .ok t) : SameFeed s t := by
  rw [cellForRowAt] at h
  split at h
  · cases h
  · rename_i r hr
    have hheld : s.Holds r := Or.inl (List.mem_of_getElem? hr)
    obtain ⟨s₁, h₁, h⟩ := bind_eq_ok.mp h
    obtain ⟨s₂, h₂, h₃⟩ := bind_eq_ok.mp h
    have hawake := sameFeed_awakeCell hheld c
    have hpicture := hawake.trans (sameFeed_loadPicture (Or.inl (List.mem_of_getElem? hr)) h₁)
    have hheld' : ∀ f, (s₁.modifyCell c f).Holds r := fun _ =>
      Or.inl (hpicture.posts ▸ List.mem_of_getElem? hr)
    exact hpicture.trans ((SameFeed.modifyCell s₁ c _).trans
      ((sameFeed_loadPosterName (hheld' _) h₂).trans (sameFeed_loadInterested h₃)))

theorem pictureReply_some (s : App) (q : PictureRequest) (data : Data) :
    s.pictureReply q (some data) =
      { s with
        pictureRequests := s.pictureRequests.erase q
        objects := Function.update s.objects q.post
          { s.objects q.post with image := Platform.imageOfData data }
        cells := Function.update s.cells q.cell { s.cells q.cell with
          mainImageView := Platform.imageOfData data
          activityIndicator := false } } := by
  simp [pictureReply, modifyPost, modifyCell]

theorem userReply_some_eq_ok {s t : App} {q : UserRequest} {node : Node} :
    s.userReply q (some node) = .ok t ↔
      ∃ user name, userOfSnapshot q.posterId node = .ok user ∧ user.username = some name ∧
        t = { s with
              userRequests := s.userRequests.erase q
              objects := Function.update s.objects q.post
                { s.objects q.post with posterName := some name }
              cells := Function.update s.cells q.cell
                { s.cells q.cell with posterNameLabel := some ("Created by: " ++ name) } } := by
  constructor
  · intro h
    obtain ⟨user, huser, h⟩ := bind_eq_ok.mp h
    obtain ⟨name, hname, h⟩ := bind_eq_ok.mp h
    obtain rfl := Except.ok.inj h
    have hname := forceUnwrap_eq_ok.mp hname
    exact ⟨user, name, huser, hname, by simp [modifyPost, modifyCell, hname]⟩
  · rintro ⟨user, name, huser, hname, rfl⟩
    refine bind_eq_ok.mpr ⟨user, huser, bind_eq_ok.mpr ⟨name, forceUnwrap_eq_ok.mpr hname, ?_⟩⟩
    simp [modifyPost, modifyCell, hname, pure, Except.pure]

theorem interestedReply_eq_ok {s t : App} {q : InterestedRequest} {node : Node} :
    s.interestedReply q node = .ok t ↔ ∃ users, interestedUsers node = .ok users ∧
      t = { s with
            interestedRequests := s.interestedRequests.erase q
            cells := Function.update s.cells q.cell
              { s.cells q.cell with interestedLabel := some (interestedText users.length) } } := by
  constructor
  · intro h
    obtain ⟨users, husers, h⟩ := bind_eq_ok.mp h
    exact ⟨users, husers, (Except.ok.inj h).symm⟩
  · rintro ⟨users, husers, rfl⟩
    exact bind_eq_ok.mpr ⟨users, husers, rfl⟩

theorem sameFeed_pictureReply (s : App) (q : PictureRequest) (data : Option Data) :
    SameFeed s (s.pictureReply q data) := by
  have herase := sameFeed_erasePicture s q
  cases data with
  | none => exact herase
  | some data =>
      rw [pictureReply]
      refine herase.trans (SameFeed.trans ?_ (.modifyCell _ q.cell _))
      exact .modifyPost _ q.post fun _ => rfl

theorem sameFeed_userReply {s t : App} {q : UserRequest} {node : Option Node}
    (h : s.userReply q node = .ok t) : SameFeed s t := by
  have herase := sameFeed_eraseUser s q
  cases node with
  | none => exact Except.ok.inj h ▸ herase
  | some node =>
      obtain ⟨user, -, h⟩ := bind_eq_ok.mp h
      obtain ⟨username, -, h⟩ := bind_eq_ok.mp h
      obtain rfl := Except.ok.inj h
      refine herase.trans ((SameFeed.modifyCell _ q.cell _).trans (.modifyPost _ q.post ?_))
      exact fun _ => rfl

theorem sameFeed_interestedReply {s t : App} {q : InterestedRequest} {node : Node}
    (h : s.interestedReply q node = .ok t) : SameFeed s t := by
  obtain ⟨users, -, h⟩ := bind_eq_ok.mp h
  obtain rfl := Except.ok.inj h
  exact ⟨rfl, rfl, rfl, rfl, rfl, rfl, rfl, fun _ => rfl, fun _ => id⟩

/-- The detail screen appears exactly when the event and the poster have names. -/
theorem detailWillAppear_eq_ok {s t : App} {d : DetailViewController} :
    s.detailWillAppear d = .ok t ↔
      ∃ title posterName, (s.objects d.post).eventName = some title ∧
        (s.objects d.post).posterName = some posterName ∧
        t = { s with detail := some { s.setInterestedButtonState { d with
                title := some title
                mainImageView := (s.objects d.post).image <|> Platform.defaultImage } with
              descriptionLabel := (s.objects d.post).description
              interestedLabel :=
                some (membersInterestedText (s.objects d.post).interestedIds.length)
              posterNameLabel := some ("Posted By: " ++ posterName) } } := by
  simp only [detailWillAppear, populateLabelInfo]
  simp only [setInterestedButtonState_post]
  cases htitle : (s.objects d.post).eventName with
  | none => exact ⟨nofun, by simp⟩
  | some title =>
      cases hname : (s.objects d.post).posterName with
      | none => exact ⟨nofun, by simp⟩
      | some posterName =>
          constructor
          · intro h
            obtain rfl := Except.ok.inj h
            exact ⟨title, posterName, rfl, rfl, rfl⟩
          · rintro ⟨title', posterName', htitle', hname', rfl⟩
            obtain rfl := Option.some.inj htitle'
            obtain rfl := Option.some.inj hname'
            rfl

/-- The detail screen of a post without its poster's name ends the process. -/
theorem detailWillAppear_unnamed {s : App} {d : DetailViewController} {title : String}
    (htitle : (s.objects d.post).eventName = some title)
    (hname : (s.objects d.post).posterName = none) :
    s.detailWillAppear d = .error (.forcedUnwrap "post.posterName!") := by
  simp only [detailWillAppear, populateLabelInfo, setInterestedButtonState_post, htitle, hname]
  rfl

/-- The detail screen of a named event with a named poster appears. -/
theorem detailWillAppear_ok {s : App} {d : DetailViewController} {title posterName : String}
    (htitle : (s.objects d.post).eventName = some title)
    (hname : (s.objects d.post).posterName = some posterName) :
    ∃ t, s.detailWillAppear d = .ok t :=
  ⟨_, detailWillAppear_eq_ok.mpr ⟨title, posterName, htitle, hname, rfl⟩⟩

theorem sameFeed_detailWillAppear {s t : App} {d : DetailViewController}
    (hd : s.detail = some d) (h : s.detailWillAppear d = .ok t) : SameFeed s t := by
  obtain ⟨title, posterName, -, -, rfl⟩ := detailWillAppear_eq_ok.mp h
  exact sameFeed_detail s hd (setInterestedButtonState_post s _)

/-- **The frame of the feed**: no other action touches the feed's subscription. -/
theorem step_sameFeed {s t : App} {a : Action} (ha : a.concernsFeed = false)
    (h : s.step a = some t) : SameFeed s t := by
  have h := step_eq_some.mp h
  cases a with
  | viewWillAppear | logOut | sessionLoss | signInReply | userCreated | viewChanged | deliver =>
      cases ha
  | tappedLogin uid =>
      obtain rfl := Except.ok.inj (Option.some.inj h)
      exact ⟨rfl, rfl, rfl, rfl, rfl, rfl, rfl, fun _ => rfl, fun _ => id⟩
  | cellForRowAt row c =>
      obtain ⟨-, h⟩ := Option.ite_none_right_eq_some.mp h
      exact sameFeed_cellForRowAt (Option.some.inj h)
  | pictureReply q data =>
      obtain ⟨-, h⟩ := Option.ite_none_right_eq_some.mp h
      exact Except.ok.inj (Option.some.inj h) ▸ sameFeed_pictureReply s q data
  | userReply q node =>
      obtain ⟨-, h⟩ := Option.ite_none_right_eq_some.mp h
      exact sameFeed_userReply (Option.some.inj h)
  | interestedReply q node =>
      obtain ⟨-, h⟩ := Option.ite_none_right_eq_some.mp h
      exact sameFeed_interestedReply (Option.some.inj h)
  | didSelectRowAt row =>
      obtain ⟨-, h⟩ := Option.ite_none_right_eq_some.mp h
      exact sameFeed_didSelectRowAt (Option.some.inj h)
  | detailWillAppear =>
      obtain ⟨d, hd, h⟩ := Option.map_eq_some_iff.mp h
      exact sameFeed_detailWillAppear hd h
  | tappedInterested key =>
      obtain ⟨d, hd, h⟩ := Option.bind_eq_some_iff.mp h
      obtain ⟨-, h⟩ := Option.ite_none_right_eq_some.mp h
      obtain ⟨⟨write, u⟩, hu, rfl⟩ := map_eq_ok.mp (Option.some.inj h)
      exact sameFeed_tappedInterested hd hu

/-! ### Deliveries -/

theorem fetchedPost_id {snap : DataSnapshot} {post : Post}
    (h : fetchedPost snap = .ok post) : post.id = some snap.key := by
  rw [fetchedPost] at h
  split at h
  · exact Post.id_init h
  · exact Post.id_init h
  · cases h

theorem fetchedPost_fresh {snap : DataSnapshot} {post : Post}
    (h : fetchedPost snap = .ok post) : post.posterName = none ∧ post.image = none := by
  rw [fetchedPost] at h
  split at h
  · exact Post.posterName_init h
  · exact Post.posterName_init h
  · cases h

/-- What the delivery of an event does: the object decoded from it is put in front of
the feed. -/
structure Delivered (s : App) (i : ℕ) (o : Observer) (snap : DataSnapshot)
    (queue : List DataSnapshot) (post : Post) (t : App) : Prop where
  observer : s.observers[i]? = some o
  next : o.queue = snap :: queue
  decoded : fetchedPost snap = .ok post
  observers : t.observers = s.observers.set i { o with queue }
  posts : t.feed.posts = s.nextRef :: s.feed.posts
  objects : t.objects = Function.update s.objects s.nextRef post
  nextRef : t.nextRef = s.nextRef + 1
  view : t.view = s.view
  currentUser : t.currentUser = s.currentUser
  postsLoaded : t.feed.postsLoaded = s.feed.postsLoaded
  table : t.feed.table = t.feed.posts
  holds : ∀ r, t.Holds r → s.Holds r ∨ r = s.nextRef

theorem step_deliver {s t : App} {i : ℕ} (h : s.step (.deliver i) = some t) :
    ∃ o snap queue post, Delivered s i o snap queue post t := by
  obtain ⟨⟨snap, s'⟩, htake, h⟩ := Option.map_eq_some_iff.mp (step_eq_some.mp h)
  obtain ⟨post, hpost, h⟩ := bind_eq_ok.mp h
  rw [takeEvent] at htake
  split at htake
  · rename_i location snap' queue hi
    obtain ⟨rfl, rfl⟩ := Prod.mk.inj (Option.some.inj htake)
    obtain rfl := Except.ok.inj h
    refine ⟨⟨location, snap' :: queue⟩, snap', queue, post, hi, rfl, hpost, rfl, rfl, rfl,
      rfl, rfl, rfl, rfl, rfl, ?_⟩
    rintro r (hr | ⟨c, hr⟩ | hr)
    · rcases List.mem_cons.mp hr with rfl | hr
      · exact Or.inr rfl
      · exact Or.inl (Or.inl hr)
    · cases hr
    · exact Or.inl (Or.inr (Or.inr hr))
  · cases htake

/-! ### Everything a step can do to the feed -/

/-- The steps of the application, as the feed sees them. -/
inductive FeedStep (s : App) : Action → App → Prop
  | subscribes (hsub : s.Subscribes .viewWillAppear) :
      FeedStep s .viewWillAppear s.viewWillAppear
  | viewChanged (view : Node) : FeedStep s (.viewChanged view) (s.viewChanged view)
  | deliver {i : ℕ} {o : Observer} {snap : DataSnapshot} {queue : List DataSnapshot}
      {post : Post} {t : App} (hd : Delivered s i o snap queue post t) :
      FeedStep s (.deliver i) t
  | kept {a : Action} {t : App} (hsub : ¬ s.Subscribes a)
      (hview : ∀ view, a ≠ .viewChanged view) (hdeliver : ∀ i, a ≠ .deliver i)
      (hkept : KeptFeed s t) : FeedStep s a t

/-- **Inversion**: a step is one of these. -/
theorem step_feed {s t : App} {a : Action} (h : s.step a = some t) : FeedStep s a t := by
  by_cases ha : a.concernsFeed
  · cases a with
    | viewWillAppear =>
        obtain rfl := Option.some.inj h
        by_cases hsub : s.Subscribes .viewWillAppear
        · exact .subscribes hsub
        · exact .kept hsub nofun nofun (keptFeed_viewWillAppear hsub)
    | logOut signOut revoked =>
        obtain rfl := Option.some.inj h
        exact .kept id nofun nofun (keptFeed_logOut s signOut revoked)
    | sessionLoss revoked =>
        obtain rfl := Option.some.inj h
        exact .kept id nofun nofun (keptFeed_endSession s revoked)
    | signInReply uid succeeded =>
        obtain ⟨-, h⟩ := Option.ite_none_right_eq_some.mp (step_eq_some.mp h)
        obtain rfl := Except.ok.inj (Option.some.inj h)
        exact .kept id nofun nofun ⟨rfl, Or.inl rfl, rfl, Or.inl rfl, fun _ => rfl, rfl⟩
    | userCreated uid =>
        obtain rfl := Option.some.inj h
        exact .kept id nofun nofun ⟨rfl, Or.inl rfl, rfl, Or.inl rfl, fun _ => rfl, rfl⟩
    | viewChanged view =>
        obtain rfl := Option.some.inj h
        exact .viewChanged view
    | deliver i =>
        obtain ⟨o, snap, queue, post, hd⟩ := step_deliver h
        exact .deliver hd
    | _ => cases ha
  · have hf := step_sameFeed (Bool.not_eq_true _ ▸ ha) h
    have hsub : ¬ s.Subscribes a := by
      cases a with
      | viewWillAppear => exact absurd rfl ha
      | _ => exact id
    exact .kept hsub (by rintro view rfl; exact ha rfl) (by rintro i rfl; exact ha rfl)
      ⟨hf.posts, Or.inl hf.table, hf.view, Or.inl hf.observers, hf.records, hf.nextRef⟩

/-- Only a new view changes the view. -/
theorem step_view {s t : App} {a : Action} (h : s.step a = some t)
    (ha : ∀ view, a ≠ .viewChanged view) : t.view = s.view := by
  cases step_feed h with
  | subscribes hsub => exact (viewWillAppear_heap s).2.2
  | viewChanged view => exact absurd rfl (ha view)
  | deliver hd => exact hd.view
  | kept hsub hview hdeliver hkept => exact hkept.view

/-- Only a delivery makes an object. -/
theorem step_nextRef {s t : App} {a : Action} (h : s.step a = some t) :
    t.nextRef = s.nextRef ∨ ∃ i o snap queue post, Delivered s i o snap queue post t := by
  cases step_feed h with
  | subscribes hsub => exact Or.inl (viewWillAppear_heap s).2.1
  | viewChanged view => exact Or.inl rfl
  | deliver hd => exact Or.inr ⟨_, _, _, _, _, hd⟩
  | kept hsub hview hdeliver hkept => exact Or.inl hkept.nextRef

/-! ### The objects -/

/-- Of the actions of the feed only a delivery touches the objects. -/
theorem step_feed_objects {s t : App} {a : Action} (ha : a.concernsFeed = true)
    (hdeliver : ∀ i, a ≠ .deliver i) (h : s.step a = some t) :
    t.objects = s.objects := by
  cases a with
  | viewWillAppear =>
      obtain rfl := Option.some.inj h
      exact (viewWillAppear_heap s).1
  | logOut signOut revoked =>
      obtain rfl := Option.some.inj h
      exact (logOut_frame s signOut revoked).2.2.1
  | sessionLoss revoked =>
      obtain rfl := Option.some.inj h
      exact (endSession_frame s revoked).2.2.1
  | signInReply uid succeeded =>
      obtain ⟨-, h⟩ := Option.ite_none_right_eq_some.mp (step_eq_some.mp h)
      obtain rfl := Except.ok.inj (Option.some.inj h)
      rfl
  | userCreated | viewChanged =>
      obtain rfl := Option.some.inj h
      rfl
  | deliver i => exact absurd rfl (hdeliver i)
  | _ => cases ha

/-- **The frame of the objects**: no other action touches them. -/
theorem step_objects {s t : App} {a : Action} (ha : a.writesObjects = false)
    (h : s.step a = some t) : t.objects = s.objects := by
  by_cases hfeed : a.concernsFeed
  · exact step_feed_objects hfeed (by rintro i rfl; cases ha) h
  · have h := step_eq_some.mp h
    cases a with
    | viewWillAppear | logOut | sessionLoss | signInReply | userCreated | viewChanged | deliver =>
        exact absurd rfl hfeed
    | tappedInterested key => cases ha
    | tappedLogin uid =>
        obtain rfl := Except.ok.inj (Option.some.inj h)
        rfl
    | cellForRowAt row c =>
        obtain ⟨-, h⟩ := Option.ite_none_right_eq_some.mp h
        exact cellForRowAt_objects (Option.some.inj h)
    | pictureReply q data =>
        obtain ⟨-, h⟩ := Option.ite_none_right_eq_some.mp h
        cases data with
        | some data => cases ha
        | none =>
            obtain rfl := Except.ok.inj (Option.some.inj h)
            rfl
    | userReply q node =>
        obtain ⟨-, h⟩ := Option.ite_none_right_eq_some.mp h
        cases node with
        | some node => cases ha
        | none =>
            obtain rfl := Except.ok.inj (Option.some.inj h)
            rfl
    | interestedReply q node =>
        obtain ⟨-, h⟩ := Option.ite_none_right_eq_some.mp h
        obtain ⟨users, -, h⟩ := bind_eq_ok.mp (Option.some.inj h)
        obtain rfl := Except.ok.inj h
        rfl
    | didSelectRowAt row =>
        obtain ⟨-, h⟩ := Option.ite_none_right_eq_some.mp h
        exact didSelectRowAt_objects (Option.some.inj h)
    | detailWillAppear =>
        obtain ⟨d, -, h⟩ := Option.map_eq_some_iff.mp h
        obtain ⟨title, posterName, -, -, rfl⟩ := detailWillAppear_eq_ok.mp h
        rfl

/-- What a tap does to the objects. -/
theorem step_tappedInterested {s t : App} {key : Key}
    (h : s.step (.tappedInterested key) = some t) :
    ∃ d uid, s.detail = some d ∧ s.currentUser = some uid ∧
      t.objects = (s.appendInterested d.post uid).objects := by
  obtain ⟨d, hd, h⟩ := Option.bind_eq_some_iff.mp (step_eq_some.mp h)
  obtain ⟨-, h⟩ := Option.ite_none_right_eq_some.mp h
  obtain ⟨⟨write, u⟩, hu, rfl⟩ := map_eq_ok.mp (Option.some.inj h)
  obtain ⟨postId, uid, count, -, huid, -, rfl⟩ := tappedInterested_eq_ok hu
  exact ⟨d, uid, hd, huid, rfl⟩

/-- What is held after an action was held before it, or is the reference of the object
that it made. -/
theorem step_holds {s t : App} {a : Action} (h : s.step a = some t) {r : PostRef}
    (hr : t.Holds r) : s.Holds r ∨ r < t.nextRef := by
  by_cases ha : a.concernsFeed
  · cases a with
    | viewWillAppear =>
        obtain rfl := Option.some.inj h
        exact Or.inl (holds_viewWillAppear hr)
    | logOut signOut revoked =>
        obtain rfl := Option.some.inj h
        cases signOut with
        | false => exact Or.inl hr
        | true =>
            have hr : ({ s with feed.postsLoaded := false } : App).Holds r := holds_endSession hr
            exact Or.inl hr
    | sessionLoss revoked =>
        obtain rfl := Option.some.inj h
        exact Or.inl (holds_endSession hr)
    | signInReply uid succeeded =>
        obtain ⟨-, h⟩ := Option.ite_none_right_eq_some.mp (step_eq_some.mp h)
        obtain rfl := Except.ok.inj (Option.some.inj h)
        exact Or.inl hr
    | userCreated uid =>
        obtain rfl := Option.some.inj h
        exact Or.inl hr
    | viewChanged view =>
        obtain rfl := Option.some.inj h
        exact Or.inl hr
    | deliver i =>
        obtain ⟨o, snap, queue, post, hd⟩ := step_deliver h
        exact (hd.holds r hr).imp_right fun hr => by simp [hr, hd.nextRef]
    | _ => cases ha
  · exact Or.inl ((step_sameFeed (Bool.not_eq_true _ ▸ ha) h).holds r hr)

/-- References are only ever handed on, but for that of the object a delivery makes. -/
theorem Allocated.step {s t : App} {a : Action} (hs : s.Allocated) (h : s.step a = some t) :
    t.Allocated := by
  intro r hr
  rcases step_holds h hr with hr | hr
  · rcases step_nextRef h with hnext | ⟨i, o, snap, queue, post, hd⟩
    · exact hnext ▸ hs r hr
    · exact hd.nextRef ▸ Nat.lt_succ_of_lt (hs r hr)
  · exact hr

end App

end MDBSocials
