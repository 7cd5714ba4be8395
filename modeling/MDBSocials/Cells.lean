import MDBSocials.DetailScreen

/-!
# The Cells of the Feed

Rendering a row clears the cell object that was dequeued for it, shows what the `Post`
object has, and starts a request for each of the other contents. The completions of the
requests capture the cell object, which may stand for another row by then.

`Sources` says what the services hold of posts and users. It is arbitrary, and only has to
agree with what the completions bring.

## Main results

* `cellForRowAt_eq_ok`: what rendering a row does.
* `CachesOwn.step`: the pictures and names that `Post` objects keep are their own, whatever
  becomes of the cells.
* `CellsShowOwn.step`: the cells go on showing their own posts exactly when what a
  completion brings is right for the post of its cell object.
-/

namespace MDBSocials

/-! ### Rendering a row -/

/-- What `cellForRowAt` shows of a post at once. -/
def Post.cell (post : Post) : FeedTableViewCell where
  mainImageView := post.image
  eventNameLabel := post.eventName
  posterNameLabel := post.posterName.map ("Created by: " ++ ·)
  activityIndicator := true

namespace App

/-- The `getUserWithId` that rendering a post starts: none when its poster's name is
there. -/
def usersFor (post : Post) (r : PostRef) (c : CellRef) : List UserRequest :=
  match post.posterName with
  | some _ => []
  | none => (post.posterId.map fun posterId => ⟨c, r, posterId⟩).toList

/-- The `getInterestedUsers` that rendering a post starts. -/
def interestedFor (post : Post) (c : CellRef) : List InterestedRequest :=
  (post.id.map fun postId => ⟨c, postId⟩).toList

variable [Platform]

/-- The download that rendering a post starts: none when its picture is there. -/
def picturesFor (post : Post) (r : PostRef) (c : CellRef) : List PictureRequest :=
  match post.image with
  | some _ => []
  | none => ((post.imageUrl.bind Platform.referenceForURL).map fun ref => ⟨c, r, ref⟩).toList

theorem mem_picturesFor {post : Post} {r : PostRef} {c : CellRef} {q : PictureRequest} :
    q ∈ picturesFor post r c ↔ post.image = none ∧ q.cell = c ∧ q.post = r ∧
      ∃ url ∈ post.imageUrl, q.reference ∈ Platform.referenceForURL url := by
  obtain ⟨cell, post', reference⟩ := q
  rw [picturesFor]
  cases post.image with
  | some image => simp
  | none =>
      cases post.imageUrl with
      | none => simp
      | some url => simp [and_left_comm, eq_comm]

omit [Platform] in
theorem mem_usersFor {post : Post} {r : PostRef} {c : CellRef} {q : UserRequest} :
    q ∈ usersFor post r c ↔
      post.posterName = none ∧ q.cell = c ∧ q.post = r ∧ post.posterId = some q.posterId := by
  obtain ⟨cell, post', posterId⟩ := q
  rw [usersFor]
  cases post.posterName with
  | some name => simp
  | none => simp [and_left_comm, eq_comm]

/-- A post that can be rendered: what the requests unwrap is there. -/
structure Renderable (post : Post) : Prop where
  picture : post.image = none → (post.imageUrl.bind Platform.referenceForURL).isSome
  poster : post.posterName = none → post.posterId.isSome
  id : post.id.isSome

/-- The state after a row of a post has been rendered in a cell. -/
def rendered (s : App) (r : PostRef) (c : CellRef) : App :=
  { s with
    cells := Function.update s.cells c (s.objects r).cell
    bound := Function.update s.bound c (some r)
    pictureRequests := s.pictureRequests ++ picturesFor (s.objects r) r c
    userRequests := s.userRequests ++ usersFor (s.objects r) r c
    interestedRequests := s.interestedRequests ++ interestedFor (s.objects r) c }

theorem loadPicture_eq_ok {s t : App} {r : PostRef} {c : CellRef}
    (hcell : (s.cells c).mainImageView = none) :
    s.loadPicture r c = .ok t ↔
      ((s.objects r).image = none →
        ((s.objects r).imageUrl.bind Platform.referenceForURL).isSome) ∧
      t = { s.modifyCell c fun cell => { cell with mainImageView := (s.objects r).image } with
            pictureRequests := s.pictureRequests ++ picturesFor (s.objects r) r c } := by
  cases himage : (s.objects r).image with
  | some image =>
      have hload : s.loadPicture r c =
          .ok (s.modifyCell c fun cell => { cell with mainImageView := some image }) := by
        rw [loadPicture, himage]
      rw [hload, Except.ok.injEq, eq_comm (b := t)]
      simp [picturesFor, himage, modifyCell]
  | none =>
      have hsame : (s.modifyCell c fun cell => { cell with mainImageView := none }) = s := by
        rw [modifyCell, ← hcell, Function.update_eq_self]
      rw [hsame]
      cases hurl : (s.objects r).imageUrl with
      | none => simp [loadPicture, himage, getPicture, hurl, bind, Except.bind]
      | some url =>
          cases href : Platform.referenceForURL url with
          | none => simp [loadPicture, himage, getPicture, hurl, href, bind, Except.bind]
          | some ref =>
              have hload : s.loadPicture r c = .ok { s with
                  pictureRequests := s.pictureRequests ++ [⟨c, r, ref⟩] } := by
                rw [loadPicture, himage]
                exact bind_eq_ok.mpr ⟨url, forceUnwrap_eq_ok.mpr hurl, by rw [href]; rfl⟩
              rw [hload, Except.ok.injEq, eq_comm (b := t)]
              simp [picturesFor, himage, hurl, href]

omit [Platform] in
theorem loadPosterName_eq_ok {s t : App} {r : PostRef} {c : CellRef}
    (hcell : (s.cells c).posterNameLabel = none) :
    s.loadPosterName r c = .ok t ↔
      ((s.objects r).posterName = none → (s.objects r).posterId.isSome) ∧
      t = { s.modifyCell c fun cell => { cell with
              posterNameLabel := (s.objects r).posterName.map ("Created by: " ++ ·) } with
            userRequests := s.userRequests ++ usersFor (s.objects r) r c } := by
  cases hname : (s.objects r).posterName with
  | some name =>
      have hload : s.loadPosterName r c = .ok (s.modifyCell c fun cell =>
          { cell with posterNameLabel := some ("Created by: " ++ name) }) := by
        rw [loadPosterName, hname]
      rw [hload, Except.ok.injEq, eq_comm (b := t)]
      simp [usersFor, hname, modifyCell]
  | none =>
      have hsame : (s.modifyCell c fun cell => { cell with posterNameLabel := none }) = s := by
        rw [modifyCell, ← hcell, Function.update_eq_self]
      rw [Option.map_none, hsame]
      cases hid : (s.objects r).posterId with
      | none => simp [loadPosterName, hname, hid, bind, Except.bind]
      | some posterId =>
          have hload : s.loadPosterName r c = .ok { s with
              userRequests := s.userRequests ++ [⟨c, r, posterId⟩] } := by
            rw [loadPosterName, hname]
            exact bind_eq_ok.mpr ⟨posterId, forceUnwrap_eq_ok.mpr hid, rfl⟩
          rw [hload, Except.ok.injEq, eq_comm (b := t)]
          simp [usersFor, hname, hid]

omit [Platform] in
theorem loadInterested_eq_ok {s t : App} {r : PostRef} {c : CellRef} :
    s.loadInterested r c = .ok t ↔ (s.objects r).id.isSome ∧
      t = { s with
            interestedRequests := s.interestedRequests ++ interestedFor (s.objects r) c } := by
  cases hid : (s.objects r).id with
  | none => simp [loadInterested, hid, bind, Except.bind]
  | some postId =>
      have hload : s.loadInterested r c = .ok { s with
          interestedRequests := s.interestedRequests ++ [⟨c, postId⟩] } :=
        bind_eq_ok.mpr ⟨postId, forceUnwrap_eq_ok.mpr hid, rfl⟩
      rw [hload, Except.ok.injEq, eq_comm (b := t)]
      simp [interestedFor, hid]

/-- **Rendering a row**: the cell is cleared, shows what the object has, and the requests
for the rest are started. -/
theorem cellForRowAt_eq_ok {s t : App} {row : ℕ} {c : CellRef} :
    s.cellForRowAt row c = .ok t ↔
      ∃ r, s.feed.posts[row]? = some r ∧ Renderable (s.objects r) ∧ t = s.rendered r c := by
  cases hr : s.feed.posts[row]? with
  | none => simp [cellForRowAt, hr]
  | some r =>
      have hawake : ((s.awakeCell r c).cells c).mainImageView = none := by simp [awakeCell]
      simp only [cellForRowAt, hr, bind_eq_ok, loadPicture_eq_ok hawake]
      constructor
      · rintro ⟨s₁, ⟨hpicture, rfl⟩, s₂, h₂, h₃⟩
        rw [loadPosterName_eq_ok (by simp [modifyCell, awakeCell])] at h₂
        obtain ⟨hposter, rfl⟩ := h₂
        obtain ⟨hid, rfl⟩ := loadInterested_eq_ok.mp h₃
        refine ⟨r, rfl, ⟨hpicture, hposter, hid⟩, ?_⟩
        simp [rendered, modifyCell, awakeCell, Post.cell]
      · rintro ⟨r', hr', hpost, rfl⟩
        obtain rfl := Option.some.inj hr'
        refine ⟨_, ⟨hpost.picture, rfl⟩, _,
          (loadPosterName_eq_ok (by simp [modifyCell, awakeCell])).mpr ⟨hpost.poster, rfl⟩,
          loadInterested_eq_ok.mpr ⟨hpost.id, ?_⟩⟩
        simp [rendered, modifyCell, awakeCell, Post.cell]

end App

/-! ### Actions that leave the cells alone -/

/-- The actions that change what cells show. -/
def Action.concernsCells : Action → Bool
  | .cellForRowAt .. | .pictureReply .. | .userReply .. | .interestedReply .. => true
  | _ => false

/-- What is shown of a `Post` object in a cell, and decides what is requested for it. -/
def Post.shown (post : Post) : Post := { post with interestedIds := [] }

theorem Post.record_of_shown {p q : Post} (h : p.shown = q.shown) : p.record = q.record :=
  (congrArg Post.record h :)

theorem Post.image_of_shown {p q : Post} (h : p.shown = q.shown) : p.image = q.image :=
  (congrArg Post.image h :)

theorem Post.posterName_of_shown {p q : Post} (h : p.shown = q.shown) :
    p.posterName = q.posterName :=
  (congrArg Post.posterName h :)

/-- Two states with the same cells and requests, in which each `Post` object shows the
same, but for one that the later state has made. -/
structure SameCells (s t : App) : Prop where
  cells : t.cells = s.cells
  bound : ∀ c r, t.bound c = some r → s.bound c = some r
  pictureRequests : t.pictureRequests = s.pictureRequests
  userRequests : t.userRequests = s.userRequests
  interestedRequests : t.interestedRequests = s.interestedRequests
  objects : ∀ r, (t.objects r).shown = (s.objects r).shown ∨
    r = s.nextRef ∧ (t.objects r).image = none ∧ (t.objects r).posterName = none

namespace App

theorem sameCells_viewWillAppear (s : App) : SameCells s s.viewWillAppear := by
  rw [viewWillAppear]
  split
  · exact ⟨rfl, fun _ _ => id, rfl, rfl, rfl, fun _ => Or.inl rfl⟩
  · split
    · exact ⟨rfl, fun _ _ => id, rfl, rfl, rfl, fun _ => Or.inl rfl⟩
    · exact ⟨rfl, by rintro _ _ ⟨⟩, rfl, rfl, rfl, fun _ => Or.inl rfl⟩

theorem sameCells_endSession (s : App) (revoked : Bool) :
    SameCells s (s.endSession revoked) := by
  rw [endSession]
  split <;> exact ⟨rfl, fun _ _ => id, rfl, rfl, rfl, fun _ => Or.inl rfl⟩

theorem sameCells_logOut (s : App) (signOut revoked : Bool) :
    SameCells s (s.logOut signOut revoked) := by
  cases signOut with
  | false => exact ⟨rfl, fun _ _ => id, rfl, rfl, rfl, fun _ => Or.inl rfl⟩
  | true =>
      obtain ⟨hcells, hbound, hpics, husers, hints, hobj⟩ :=
        sameCells_endSession { s with feed.postsLoaded := false } revoked
      exact ⟨hcells, hbound, hpics, husers, hints, hobj⟩

variable [Platform]

theorem sameCells_deliver {s t : App} {i : ℕ} (h : s.step (.deliver i) = some t) :
    SameCells s t := by
  obtain ⟨⟨snap, s'⟩, htake, h⟩ := Option.map_eq_some_iff.mp (step_eq_some.mp h)
  obtain ⟨post, hpost, h⟩ := bind_eq_ok.mp h
  obtain ⟨hname, himage⟩ := fetchedPost_fresh hpost
  rw [takeEvent] at htake
  split at htake
  · obtain ⟨rfl, rfl⟩ := Prod.mk.inj (Option.some.inj htake)
    obtain rfl := Except.ok.inj h
    refine ⟨rfl, by rintro _ _ ⟨⟩, rfl, rfl, rfl, fun r => ?_⟩
    by_cases hr : r = s.nextRef
    · subst hr
      exact Or.inr ⟨rfl, by simpa [alloc, insertPosts, reloadData] using himage,
        by simpa [alloc, insertPosts, reloadData] using hname⟩
    · exact Or.inl (by simp [alloc, insertPosts, reloadData, hr])
  · cases htake

/-- **The frame of the cells**: no other action touches them or the requests. -/
theorem step_sameCells {s t : App} {a : Action} (ha : a.concernsCells = false)
    (h : s.step a = some t) : SameCells s t := by
  have h' := step_eq_some.mp h
  cases a with
  | cellForRowAt | pictureReply | userReply | interestedReply => cases ha
  | viewWillAppear => exact Option.some.inj h ▸ sameCells_viewWillAppear s
  | logOut signOut revoked => exact Option.some.inj h ▸ sameCells_logOut s signOut revoked
  | sessionLoss revoked => exact Option.some.inj h ▸ sameCells_endSession s revoked
  | deliver i => exact sameCells_deliver h
  | signInReply uid succeeded =>
      obtain ⟨-, h'⟩ := Option.ite_none_right_eq_some.mp h'
      obtain rfl := Except.ok.inj (Option.some.inj h')
      exact ⟨rfl, fun _ _ => id, rfl, rfl, rfl, fun _ => Or.inl rfl⟩
  | tappedLogin | userCreated | viewChanged =>
      obtain rfl := Option.some.inj h
      exact ⟨rfl, fun _ _ => id, rfl, rfl, rfl, fun _ => Or.inl rfl⟩
  | didSelectRowAt row =>
      obtain ⟨-, h'⟩ := Option.ite_none_right_eq_some.mp h'
      rw [didSelectRowAt] at h'
      split at h'
      · cases h'
      · obtain rfl := Except.ok.inj (Option.some.inj h')
        exact ⟨rfl, fun _ _ => id, rfl, rfl, rfl, fun _ => Or.inl rfl⟩
  | detailWillAppear =>
      obtain ⟨d, -, h'⟩ := Option.map_eq_some_iff.mp h'
      obtain ⟨title, posterName, -, -, rfl⟩ := detailWillAppear_eq_ok.mp h'
      exact ⟨rfl, fun _ _ => id, rfl, rfl, rfl, fun _ => Or.inl rfl⟩
  | tappedInterested key =>
      obtain ⟨d, -, h'⟩ := Option.bind_eq_some_iff.mp h'
      obtain ⟨-, h'⟩ := Option.ite_none_right_eq_some.mp h'
      obtain ⟨⟨write, u⟩, hu, rfl⟩ := map_eq_ok.mp (Option.some.inj h')
      obtain ⟨postId, userId, count, -, -, -, rfl⟩ := tappedInterested_eq_ok hu
      refine ⟨rfl, fun _ _ => id, rfl, rfl, rfl, fun r => Or.inl ?_⟩
      by_cases hr : r = d.post
      · subst hr
        simp [appendInterested, modifyPost, Post.shown]
      · simp [appendInterested, modifyPost, hr]

/-! ### The detail screen -/

/-- What a step does to the detail screen. -/
inductive DetailStep (s : App) (a : Action) (t : App) : Prop
  | kept (htap : ∀ key, a ≠ .tappedInterested key) (h : t.detail = s.detail)
  | opens (r : PostRef) (h : t.detail = some { post := r })
  | appears (d : DetailViewController) (hd : s.detail = some d) (h : s.detailWillAppear d = .ok t)
  | marked (d : DetailViewController) (count : ℕ) (hd : s.detail = some d)
      (h : t.detail = some (markInterested d count))

theorem step_detail {s t : App} {a : Action} (hst : s.step a = some t) : DetailStep s a t := by
  have h := step_eq_some.mp hst
  cases a with
  | viewWillAppear =>
      obtain rfl := Option.some.inj hst
      rw [viewWillAppear]
      split
      · exact .kept (by simp) rfl
      · split <;> exact .kept (by simp) rfl
  | logOut signOut revoked =>
      obtain rfl := Option.some.inj hst
      cases signOut with
      | false => exact .kept (by simp) rfl
      | true =>
          rw [logOut, if_pos rfl, endSession]
          split <;> exact .kept (by simp) rfl
  | sessionLoss revoked =>
      obtain rfl := Option.some.inj hst
      rw [endSession]
      split <;> exact .kept (by simp) rfl
  | tappedLogin | userCreated | viewChanged =>
      obtain rfl := Option.some.inj hst
      exact .kept (by simp) rfl
  | signInReply =>
      obtain ⟨-, h⟩ := Option.ite_none_right_eq_some.mp h
      obtain rfl := Except.ok.inj (Option.some.inj h)
      exact .kept (by simp) rfl
  | deliver i =>
      obtain ⟨⟨snap, s'⟩, htake, h⟩ := Option.map_eq_some_iff.mp h
      obtain ⟨post, -, h⟩ := bind_eq_ok.mp h
      rw [takeEvent] at htake
      split at htake
      · obtain ⟨-, rfl⟩ := Prod.mk.inj (Option.some.inj htake)
        obtain rfl := Except.ok.inj h
        exact .kept (by simp) rfl
      · cases htake
  | cellForRowAt row cell =>
      obtain ⟨-, h⟩ := Option.ite_none_right_eq_some.mp h
      obtain ⟨r, -, -, rfl⟩ := cellForRowAt_eq_ok.mp (Option.some.inj h)
      exact .kept (by simp) rfl
  | pictureReply q data =>
      obtain ⟨-, h⟩ := Option.ite_none_right_eq_some.mp h
      obtain rfl := Except.ok.inj (Option.some.inj h)
      cases data <;> exact .kept (by simp) rfl
  | userReply q node =>
      obtain ⟨-, h⟩ := Option.ite_none_right_eq_some.mp h
      cases node with
      | none =>
          obtain rfl := Except.ok.inj (Option.some.inj h)
          exact .kept (by simp) rfl
      | some node =>
          obtain ⟨user, name, -, -, rfl⟩ := userReply_some_eq_ok.mp (Option.some.inj h)
          exact .kept (by simp) rfl
  | interestedReply q node =>
      obtain ⟨-, h⟩ := Option.ite_none_right_eq_some.mp h
      obtain ⟨users, -, rfl⟩ := interestedReply_eq_ok.mp (Option.some.inj h)
      exact .kept (by simp) rfl
  | didSelectRowAt row =>
      obtain ⟨-, h⟩ := Option.ite_none_right_eq_some.mp h
      rw [didSelectRowAt] at h
      split at h
      · cases h
      · rename_i r hr
        obtain rfl := Except.ok.inj (Option.some.inj h)
        exact .opens r rfl
  | detailWillAppear =>
      obtain ⟨d, hd, h⟩ := Option.map_eq_some_iff.mp h
      exact .appears d hd h
  | tappedInterested key =>
      obtain ⟨d, hd, h⟩ := Option.bind_eq_some_iff.mp h
      obtain ⟨-, h⟩ := Option.ite_none_right_eq_some.mp h
      obtain ⟨⟨write, u⟩, hu, rfl⟩ := map_eq_ok.mp (Option.some.inj h)
      obtain ⟨postId, userId, count, -, -, -, rfl⟩ := tappedInterested_eq_ok hu
      exact .marked d count hd rfl

end App

/-! ### What the services say of a post -/

section Sources

variable [Platform]

/-- What Storage and the database hold of posts and users, at whatever time: the pictures
at a location, the names of a user, and the numbers of users interested in a post. -/
structure Sources where
  picture : StoragePath → UIImage → Prop
  username : Uid → String → Prop
  count : Key → ℕ → Prop

namespace Sources

/-- A picture of the post. -/
def OwnPicture (E : Sources) (post : Post) (image : UIImage) : Prop :=
  ∃ url ∈ post.imageUrl, ∃ ref ∈ Platform.referenceForURL url, E.picture ref image

/-- The username of the post's poster. -/
def OwnName (E : Sources) (post : Post) (name : String) : Prop :=
  ∃ posterId ∈ post.posterId, E.username posterId name

/-- A number of users interested in the post. -/
def OwnCount (E : Sources) (post : Post) (count : ℕ) : Prop :=
  ∃ postId ∈ post.id, E.count postId count

variable {E : Sources}

theorem OwnPicture.of_record {post post' : Post} {image : UIImage}
    (h : E.OwnPicture post image) (hrec : post'.record = post.record) :
    E.OwnPicture post' image := by
  have hurl : post'.record.imageUrl = post.record.imageUrl := congrArg _ hrec
  obtain ⟨url, hmem, h⟩ := h
  exact ⟨url, hurl.trans hmem, h⟩

omit [Platform] in
theorem OwnName.of_record {post post' : Post} {name : String} (h : E.OwnName post name)
    (hrec : post'.record = post.record) : E.OwnName post' name := by
  have hposter : post'.record.posterId = post.record.posterId := congrArg _ hrec
  obtain ⟨posterId, hmem, h⟩ := h
  exact ⟨posterId, hposter.trans hmem, h⟩

omit [Platform] in
theorem OwnCount.of_record {post post' : Post} {count : ℕ} (h : E.OwnCount post count)
    (hrec : post'.record = post.record) : E.OwnCount post' count := by
  have hid : post'.record.id = post.record.id := congrArg _ hrec
  obtain ⟨postId, hmem, h⟩ := h
  exact ⟨postId, hid.trans hmem, h⟩

variable (E)

/-- A completion that has not failed brings what the services hold. -/
def Answers : Action → Prop
  | .pictureReply q (some data) => ∀ image ∈ Platform.imageOfData data,
      E.picture q.reference image
  | .userReply q (some node) => ∀ user ∈ (userOfSnapshot q.posterId node).toOption,
      ∀ name ∈ user.username, E.username q.posterId name
  | .interestedReply q node => ∀ users ∈ (interestedUsers node).toOption,
      E.count q.postId users.length
  | _ => True

/-- A cell shows a post's own contents, or nothing. -/
structure ShownIn (post : Post) (cell : FeedTableViewCell) : Prop where
  picture : ∀ image ∈ cell.mainImageView, E.OwnPicture post image
  posterName : ∀ text ∈ cell.posterNameLabel,
    ∃ name, E.OwnName post name ∧ text = "Created by: " ++ name
  interested : ∀ text ∈ cell.interestedLabel,
    ∃ count, E.OwnCount post count ∧ text = App.interestedText count

/-- Each cell that stands for a post shows that post's own contents, or nothing. -/
def CellsShowOwn (s : App) : Prop :=
  ∀ c r, s.bound c = some r → E.ShownIn (s.objects r) (s.cells c)

/-- A completion comes when the cell object of its request stands for no row, or for a
post of which what it brings is right. -/
def LandsOwn (s : App) : Action → Prop
  | .pictureReply q (some data) => ∀ r ∈ s.bound q.cell, ∀ image ∈ Platform.imageOfData data,
      E.OwnPicture (s.objects r) image
  | .userReply q (some node) => ∀ r ∈ s.bound q.cell,
      ∀ user ∈ (userOfSnapshot q.posterId node).toOption, ∀ name ∈ user.username,
        E.OwnName (s.objects r) name
  | .interestedReply q node => ∀ r ∈ s.bound q.cell,
      ∀ users ∈ (interestedUsers node).toOption, E.OwnCount (s.objects r) users.length
  | _ => True

/-! ### Pictures and names that are kept -/

/-- Requests ask for what their posts name, and the pictures and names that `Post` objects
keep are their own. -/
structure CachesOwn (s : App) : Prop where
  allocated : s.Allocated
  pictures : ∀ q ∈ s.pictureRequests, ∃ url ∈ (s.objects q.post).imageUrl,
    q.reference ∈ Platform.referenceForURL url
  users : ∀ q ∈ s.userRequests, (s.objects q.post).posterId = some q.posterId
  images : ∀ r, ∀ image ∈ (s.objects r).image, E.OwnPicture (s.objects r) image
  names : ∀ r, ∀ name ∈ (s.objects r).posterName, E.OwnName (s.objects r) name

variable {E}

theorem cachesOwn_launch (u : Option Uid) (view : Node) : E.CachesOwn (App.launch u view) where
  allocated := App.allocated_launch u view
  pictures := nofun
  users := nofun
  images := nofun
  names := nofun

theorem ShownIn.of_record {post post' : Post} {cell : FeedTableViewCell}
    (h : E.ShownIn post cell) (hrec : post'.record = post.record) : E.ShownIn post' cell where
  picture image himage := (h.picture image himage).of_record hrec
  posterName text htext := by
    obtain ⟨name, hname, rfl⟩ := h.posterName text htext
    exact ⟨name, hname.of_record hrec, rfl⟩
  interested text htext := by
    obtain ⟨count, hcount, rfl⟩ := h.interested text htext
    exact ⟨count, hcount.of_record hrec, rfl⟩

theorem CachesOwn.of_sameCells {s t : App} (h : E.CachesOwn s) (ht : t.Allocated)
    (hsame : SameCells s t) : E.CachesOwn t := by
  have hold : ∀ r < s.nextRef, (t.objects r).record = (s.objects r).record := fun r hr =>
    Post.record_of_shown ((hsame.objects r).resolve_right fun hnew => Nat.ne_of_lt hr hnew.1)
  refine ⟨ht, fun q hq => ?_, fun q hq => ?_, fun r image himage => ?_, fun r name hname => ?_⟩
  · rw [hsame.pictureRequests] at hq
    have hpost := hold q.post (h.allocated _ (.ofPicture hq))
    obtain ⟨url, hurl, href⟩ := h.pictures q hq
    exact ⟨url, (congrArg Post.imageUrl hpost :).trans hurl, href⟩
  · rw [hsame.userRequests] at hq
    have hpost := hold q.post (h.allocated _ (.ofUser hq))
    exact (congrArg Post.posterId hpost :).trans (h.users q hq)
  · rcases hsame.objects r with hpost | ⟨-, hnone, -⟩
    · have himage : image ∈ (s.objects r).image := Post.image_of_shown hpost ▸ himage
      exact (h.images r image himage).of_record (Post.record_of_shown hpost)
    · exact absurd himage (by simp [hnone])
  · rcases hsame.objects r with hpost | ⟨-, -, hnone⟩
    · have hname : name ∈ (s.objects r).posterName := Post.posterName_of_shown hpost ▸ hname
      exact (h.names r name hname).of_record (Post.record_of_shown hpost)
    · exact absurd hname (by simp [hnone])

omit [Platform] in
/-- Filling in an object leaves all records as they are. -/
theorem record_update {objects : PostRef → Post} {r : PostRef} {post : Post}
    (hrec : post.record = (objects r).record) (r' : PostRef) :
    (Function.update objects r post r').record = (objects r').record := by
  by_cases hr : r' = r
  · subst hr
    rw [Function.update_self, hrec]
  · rw [Function.update_of_ne hr]

/-- A completion fills in an object's own picture or name. -/
theorem CachesOwn.of_update {s t : App} (h : E.CachesOwn s) (ht : t.Allocated) {r : PostRef}
    {post : Post} (hobj : t.objects = Function.update s.objects r post)
    (hrec : post.record = (s.objects r).record)
    (himage : ∀ image ∈ post.image, E.OwnPicture (s.objects r) image)
    (hname : ∀ name ∈ post.posterName, E.OwnName (s.objects r) name)
    (hpictures : t.pictureRequests ⊆ s.pictureRequests)
    (husers : t.userRequests ⊆ s.userRequests) : E.CachesOwn t := by
  have hold : ∀ r', (t.objects r').record = (s.objects r').record := fun r' =>
    hobj ▸ record_update hrec r'
  refine ⟨ht, fun q hq => ?_, fun q hq => ?_, fun r' image hmem => ?_, fun r' name hmem => ?_⟩
  · obtain ⟨url, hurl, href⟩ := h.pictures q (hpictures hq)
    exact ⟨url, (congrArg Post.imageUrl (hold q.post) :).trans hurl, href⟩
  · exact (congrArg Post.posterId (hold q.post) :).trans (h.users q (husers hq))
  · refine OwnPicture.of_record ?_ (hold r')
    by_cases hr : r' = r
    · subst hr
      exact himage image (by simpa [hobj] using hmem)
    · exact h.images r' image (by simpa [hobj, hr] using hmem)
  · refine OwnName.of_record ?_ (hold r')
    by_cases hr : r' = r
    · subst hr
      exact hname name (by simpa [hobj] using hmem)
    · exact h.names r' name (by simpa [hobj, hr] using hmem)

/-- **What is kept is right**: whatever becomes of the cells, an object only ever keeps the
picture and the name of its own record. -/
theorem CachesOwn.step {s t : App} {a : Action} (h : E.CachesOwn s) (ha : E.Answers a)
    (hst : s.step a = some t) : E.CachesOwn t := by
  have ht : t.Allocated := h.allocated.step hst
  by_cases hcells : a.concernsCells
  · have hst := App.step_eq_some.mp hst
    cases a with
    | cellForRowAt row c =>
        obtain ⟨-, hst⟩ := Option.ite_none_right_eq_some.mp hst
        obtain ⟨r, hr, hpost, rfl⟩ := App.cellForRowAt_eq_ok.mp (Option.some.inj hst)
        refine ⟨ht, fun q hq => ?_, fun q hq => ?_, h.images, h.names⟩
        · rcases List.mem_append.mp hq with hq | hq
          · exact h.pictures q hq
          · obtain ⟨-, -, rfl, hurl⟩ := App.mem_picturesFor.mp hq
            exact hurl
        · rcases List.mem_append.mp hq with hq | hq
          · exact h.users q hq
          · obtain ⟨-, -, rfl, hid⟩ := App.mem_usersFor.mp hq
            exact hid
    | pictureReply q data =>
        obtain ⟨hq, hst⟩ := Option.ite_none_right_eq_some.mp hst
        obtain rfl := Except.ok.inj (Option.some.inj hst)
        cases data with
        | none =>
            exact ⟨ht, fun q' hq' => h.pictures q' (List.mem_of_mem_erase hq'), h.users,
              h.images, h.names⟩
        | some data =>
            obtain ⟨url, hurl, href⟩ := h.pictures q hq
            rw [App.pictureReply_some] at ht ⊢
            exact h.of_update ht rfl rfl (fun image himage => ⟨url, hurl, _, href, ha image himage⟩)
              (h.names q.post) (List.erase_subset) (List.Subset.refl _)
    | userReply q node =>
        obtain ⟨hq, hst⟩ := Option.ite_none_right_eq_some.mp hst
        cases node with
        | none =>
            obtain rfl := Except.ok.inj (Option.some.inj hst)
            exact ⟨ht, h.pictures, fun q' hq' => h.users q' (List.mem_of_mem_erase hq'),
              h.images, h.names⟩
        | some node =>
            obtain ⟨user, name, huser, hname, rfl⟩ :=
              App.userReply_some_eq_ok.mp (Option.some.inj hst)
            refine h.of_update ht rfl rfl (h.images q.post) (fun name' hname' => ?_)
              (List.Subset.refl _) (List.erase_subset)
            obtain rfl := Option.some.inj hname'
            exact ⟨q.posterId, h.users q hq, ha user (toOption_eq_some.mpr huser) name hname⟩
    | interestedReply q node =>
        obtain ⟨-, hst⟩ := Option.ite_none_right_eq_some.mp hst
        obtain ⟨users, -, rfl⟩ := App.interestedReply_eq_ok.mp (Option.some.inj hst)
        exact ⟨ht, h.pictures, h.users, h.images, h.names⟩
    | _ => cases hcells
  · exact h.of_sameCells ht (App.step_sameCells (Bool.not_eq_true _ ▸ hcells) hst)

/-- Services that may hold anything. -/
def any : Sources := ⟨fun _ _ => True, fun _ _ => True, fun _ _ => True⟩

theorem answers_any (a : Action) : any.Answers a := by
  cases a with
  | pictureReply q data => cases data <;> simp [Answers, any]
  | userReply q node => cases node <;> simp [Answers, any]
  | interestedReply q node => simp [Answers, any]
  | _ => trivial

/-- What is kept stays right in a run whose completions bring what the services hold. -/
theorem CachesOwn.run {s t : App} (h : E.CachesOwn s) {as : List Action}
    (has : ∀ a ∈ as, E.Answers a) (hrun : App.machine.run s as = some t) : E.CachesOwn t := by
  induction as generalizing s with
  | nil => exact Option.some.inj hrun ▸ h
  | cons a as ih =>
      obtain ⟨u, hu, hrun⟩ := Machine.run_cons_eq_some.mp hrun
      obtain ⟨ha, has⟩ := List.forall_mem_cons.mp has
      exact ih (h.step ha hu) has hrun

/-! ### What the cells show -/

theorem CellsShowOwn.of_sameCells {s t : App} (h : E.CellsShowOwn s) (hs : s.Allocated)
    (hsame : SameCells s t) : E.CellsShowOwn t := by
  intro c r hr
  have hold := hsame.bound c r hr
  have hlt : r < s.nextRef := hs r (.ofBound hold)
  have hpost := (hsame.objects r).resolve_right fun hnew => Nat.ne_of_lt hlt hnew.1
  rw [hsame.cells]
  exact (h c r hold).of_record (Post.record_of_shown hpost)

/-- Only the cell that a completion writes into can come to show something else. -/
theorem CellsShowOwn.update {s t : App} (h : E.CellsShowOwn s) {c : CellRef}
    {cell : FeedTableViewCell} (hcells : t.cells = Function.update s.cells c cell)
    (hbound : t.bound = s.bound) {r₀ : PostRef} {post : Post}
    (hobj : t.objects = Function.update s.objects r₀ post)
    (hpost : post.record = (s.objects r₀).record) :
    E.CellsShowOwn t ↔ ∀ r ∈ s.bound c, E.ShownIn (s.objects r) cell := by
  have hrec : ∀ r, (t.objects r).record = (s.objects r).record := fun r =>
    hobj ▸ record_update hpost r
  constructor
  · intro ht r hr
    have hshown := (ht c r (hbound ▸ hr)).of_record (hrec r).symm
    simpa [hcells] using hshown
  · intro hcell c' r hr
    rw [hbound] at hr
    refine ShownIn.of_record ?_ (hrec r)
    by_cases hc : c' = c
    · subst hc
      simpa [hcells] using hcell r hr
    · simpa [hcells, hc] using h c' r hr

theorem ShownIn.setPicture {post : Post} {cell : FeedTableViewCell} (h : E.ShownIn post cell)
    (image : Option UIImage) (loading : Bool) :
    E.ShownIn post { cell with mainImageView := image, activityIndicator := loading } ↔
      ∀ i ∈ image, E.OwnPicture post i :=
  ⟨fun h' => h'.picture, fun himage => ⟨himage, h.posterName, h.interested⟩⟩

theorem ShownIn.setName {post : Post} {cell : FeedTableViewCell} (h : E.ShownIn post cell)
    (name : String) :
    E.ShownIn post { cell with posterNameLabel := some ("Created by: " ++ name) } ↔
      E.OwnName post name := by
  constructor
  · intro h'
    obtain ⟨name', hname, htext⟩ := h'.posterName _ rfl
    exact (String.append_right_inj _).mp htext ▸ hname
  · intro hname
    refine ⟨h.picture, fun text htext => ?_, h.interested⟩
    obtain rfl := Option.some.inj htext
    exact ⟨name, hname, rfl⟩

theorem ShownIn.setCount {post : Post} {cell : FeedTableViewCell} (h : E.ShownIn post cell)
    (count : ℕ) :
    E.ShownIn post { cell with interestedLabel := some (App.interestedText count) } ↔
      E.OwnCount post count := by
  constructor
  · intro h'
    obtain ⟨count', hcount, htext⟩ := h'.interested _ rfl
    exact App.interestedText_injective htext ▸ hcount
  · intro hcount
    refine ⟨h.picture, h.posterName, fun text htext => ?_⟩
    obtain rfl := Option.some.inj htext
    exact ⟨count, hcount, rfl⟩

/-- **One step**: the cells go on showing their own posts' contents exactly when a
completion that brings something comes to a cell that it is right for. -/
theorem CellsShowOwn.step {s t : App} {a : Action} (h : E.CellsShowOwn s) (hs : E.CachesOwn s)
    (hst : s.step a = some t) : E.CellsShowOwn t ↔ E.LandsOwn s a := by
  by_cases hcells : a.concernsCells
  · have hst := App.step_eq_some.mp hst
    cases a with
    | cellForRowAt row c =>
        obtain ⟨-, hst⟩ := Option.ite_none_right_eq_some.mp hst
        obtain ⟨r, hr, hpost, rfl⟩ := App.cellForRowAt_eq_ok.mp (Option.some.inj hst)
        refine iff_of_true (fun c' r' hbound => ?_) trivial
        by_cases hc : c' = c
        · subst hc
          obtain rfl : r = r' := by simpa [App.rendered] using hbound
          simp only [App.rendered, Function.update_self]
          refine ⟨fun image himage => hs.images r image himage, fun text htext => ?_, nofun⟩
          obtain ⟨name, hname, rfl⟩ := Option.map_eq_some_iff.mp htext
          exact ⟨name, hs.names r name hname, rfl⟩
        · have hold : s.bound c' = some r' := by simpa [App.rendered, hc] using hbound
          simpa [App.rendered, hc] using h c' r' hold
    | pictureReply q data =>
        obtain ⟨-, hst⟩ := Option.ite_none_right_eq_some.mp hst
        obtain rfl := Except.ok.inj (Option.some.inj hst)
        cases data with
        | none => exact iff_of_true (fun c r hbound => h c r hbound) trivial
        | some data =>
            rw [App.pictureReply_some]
            refine Iff.trans (h.update (c := q.cell) rfl rfl rfl rfl) ?_
            exact forall₂_congr fun r hr => (h q.cell r hr).setPicture _ false
    | userReply q node =>
        obtain ⟨-, hst⟩ := Option.ite_none_right_eq_some.mp hst
        cases node with
        | none =>
            obtain rfl := Except.ok.inj (Option.some.inj hst)
            exact iff_of_true (fun c r hbound => h c r hbound) trivial
        | some node =>
            obtain ⟨user, name, huser, hname, rfl⟩ :=
              App.userReply_some_eq_ok.mp (Option.some.inj hst)
            refine Iff.trans (h.update (c := q.cell) rfl rfl rfl rfl) ?_
            refine forall₂_congr fun r hr => ((h q.cell r hr).setName name).trans ?_
            simp [huser, hname, Except.toOption]
    | interestedReply q node =>
        obtain ⟨-, hst⟩ := Option.ite_none_right_eq_some.mp hst
        obtain ⟨users, husers, rfl⟩ := App.interestedReply_eq_ok.mp (Option.some.inj hst)
        refine Iff.trans
          (h.update (c := q.cell) rfl rfl (Function.update_eq_self q.cell _).symm rfl) ?_
        refine forall₂_congr fun r hr => ((h q.cell r hr).setCount _).trans ?_
        simp [husers, Except.toOption]
    | _ => cases hcells
  · refine iff_of_true (h.of_sameCells hs.allocated
      (App.step_sameCells (Bool.not_eq_true _ ▸ hcells) hst)) ?_
    cases a with
    | pictureReply | userReply | interestedReply => exact absurd rfl hcells
    | _ => trivial

end Sources

end Sources

end MDBSocials
