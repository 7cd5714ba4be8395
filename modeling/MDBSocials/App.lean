import MDBSocials.DatabaseHelper

/-!
# The Application on One Device

The state of one running application and the handlers of its view controllers, as
functions on that state. A handler returns a `Trap` where the Swift code would end the
process.

`Post` objects are shared: the feed, its cells' closures and the detail screen hold
references (`PostRef`) into `App.objects`, so that a mutation through one of them is seen
through the others. The same goes for the cell objects of the table.

Firebase is present as far as this device sees it: the signed-in user, the local view of
the database, the observers attached to it with the events queued for each, and the
requests whose completion has not run yet.
-/

namespace MDBSocials

/-- A reference to a `Post` object. -/
abbrev PostRef := ℕ

/-- A reference to a `FeedTableViewCell` object. -/
abbrev CellRef := ℕ

/-! ### State -/

/-- A `childAdded` observer: the location it is attached at, and the events raised for it
that have not been delivered. -/
structure Observer where
  location : Path
  queue : List DataSnapshot

/-- The events an observer gets when the view changes from `old` to `new`: the children
added at its location. Nothing listens to the other kinds of events. -/
def Observer.raise (old new : Node) (o : Observer) : Observer :=
  { o with
    queue := o.queue ++ (childSnapshots new o.location).filter fun snap =>
      snap.key ∉ (old.sub o.location).children }

/-- The state of the `FeedViewController`. `table` is the list of rows that the table
view loaded at the last `reloadData`. -/
structure FeedViewController where
  posts : List PostRef := []
  selectedPost : Option PostRef := none
  postsLoaded : Bool := false
  table : List PostRef := []

/-- The contents of a `FeedTableViewCell` object. -/
structure FeedTableViewCell where
  mainImageView : Option UIImage := none
  eventNameLabel : Option String := none
  posterNameLabel : Option String := none
  interestedLabel : Option String := none
  activityIndicator : Bool := false
  deriving DecidableEq, Repr

/-- The state of a `DetailViewController`. -/
structure DetailViewController where
  post : PostRef
  title : Option String := none
  mainImageView : Option UIImage := none
  descriptionLabel : Option String := none
  posterNameLabel : Option String := none
  interestedLabel : Option String := none
  interestedButtonTitle : Option String := none
  interestedButtonEnabled : Bool := true
  deriving DecidableEq, Repr

/-- A download started by `Post.getPicture` for a cell. -/
structure PictureRequest where
  cell : CellRef
  post : PostRef
  reference : StoragePath
  deriving DecidableEq, Repr

/-- A `getUserWithId` started for a cell. -/
structure UserRequest where
  cell : CellRef
  post : PostRef
  posterId : Uid
  deriving DecidableEq, Repr

/-- A `getInterestedUsers` started for a cell. -/
structure InterestedRequest where
  cell : CellRef
  postId : Key
  deriving DecidableEq, Repr

/-- The state of one running application. -/
structure App where
  /-- `Auth.auth().currentUser`. -/
  currentUser : Option Uid := none
  /-- The sign-in requests whose completion has not run. -/
  signIns : List Uid := []
  /-- The local view of the database. -/
  view : Node := .empty
  /-- The attached observers, oldest first. -/
  observers : List Observer := []
  objects : PostRef → Post := fun _ => {}
  /-- The next `Post` object to be allocated. -/
  nextRef : PostRef := 0
  feed : FeedViewController := {}
  cells : CellRef → FeedTableViewCell := fun _ => {}
  /-- The post whose row a cell object stands for on the screen. -/
  bound : CellRef → Option PostRef := fun _ => none
  pictureRequests : List PictureRequest := []
  userRequests : List UserRequest := []
  interestedRequests : List InterestedRequest := []
  detail : Option DetailViewController := none

namespace App

/-- `Database.database().reference()`, the static `postsRef` of the helper. -/
def postsRef : Path := []

/-- The ids of the posts in the feed, first row first. -/
def postIds (s : App) : List (Option Key) := s.feed.posts.map fun r => (s.objects r).id

/-- Mutate the object a reference stands for. -/
def modifyPost (s : App) (r : PostRef) (f : Post → Post) : App :=
  { s with objects := Function.update s.objects r (f (s.objects r)) }

def modifyCell (s : App) (c : CellRef) (f : FeedTableViewCell → FeedTableViewCell) : App :=
  { s with cells := Function.update s.cells c (f (s.cells c)) }

/-! ### Observers -/

/-- `observe(.childAdded)`: one event for each child already there. -/
def observe (s : App) (location : Path) : App :=
  { s with observers := s.observers ++ [⟨location, childSnapshots s.view location⟩] }

/-- `removeAllObservers`: the observers at exactly this location are detached. -/
def removeAllObservers (s : App) (location : Path) : App :=
  { s with observers := s.observers.filter (·.location ≠ location) }

/-- `FirebaseDatabaseHelper.fetchPosts`. -/
def fetchPosts (s : App) : App := s.observe (postsRef ++ ["Posts"])

/-- `FirebaseDatabaseHelper.removeObserversForPostRef`. -/
def removeObserversForPostRef (s : App) : App := s.removeAllObservers postsRef

/-- The local view changes, which raises events for the attached observers. -/
def viewChanged (s : App) (new : Node) : App :=
  { s with view := new, observers := s.observers.map (Observer.raise s.view new) }

/-- The next event of the `i`-th observer leaves its queue. -/
def takeEvent (s : App) (i : ℕ) : Option (DataSnapshot × App) :=
  match s.observers[i]? with
  | some ⟨location, snap :: queue⟩ =>
      some (snap, { s with observers := s.observers.set i ⟨location, queue⟩ })
  | _ => none

/-! ### Sessions -/

/-- A session ends; the server detaches the client's observers when its rules no longer
let it read. -/
def endSession (s : App) (revoked : Bool) : App :=
  if s.currentUser = none then s
  else { s with currentUser := none, observers := if revoked then [] else s.observers }

/-- `FirebaseAuthHelper.logIn`, up to the request. -/
def tappedLogin (s : App) (uid : Uid) : App := { s with signIns := s.signIns ++ [uid] }

/-- The completion of a sign-in request, which may have failed. -/
def signInReply (s : App) (uid : Uid) (succeeded : Bool) : App :=
  { s with
    signIns := s.signIns.erase uid
    currentUser := if succeeded then some uid else s.currentUser }

/-- `createUser` has made an account, and its user is signed in. -/
def userCreated (s : App) (uid : Uid) : App := { s with currentUser := some uid }

/-! ### The feed -/

/-- `feedTableView.reloadData()`. -/
def reloadData (s : App) : App :=
  { s with feed.table := s.feed.posts, bound := fun _ => none }

/-- `FeedViewController.viewWillAppear`. -/
def viewWillAppear (s : App) : App :=
  if s.currentUser = none then { s with feed.postsLoaded := false }
  else if s.feed.postsLoaded = false then
    let s := { s with feed.posts := [] }
    let s := s.removeObserversForPostRef
    let s := s.fetchPosts
    { s with feed.postsLoaded := true }
  else s.reloadData

/-- `FeedViewController.logOut`; `signOut` says whether `auth.signOut()` succeeds. -/
def logOut (s : App) (signOut revoked : Bool) : App :=
  let s := { s with feed.postsLoaded := false }
  if signOut then s.endSession revoked else s

/-- The block `viewWillAppear` hands to `fetchPosts`. -/
def insertPosts (s : App) (posts : List PostRef) : App :=
  let feedPosts := posts.reverse.foldl (fun acc p => p :: acc) s.feed.posts
  { s with feed.posts := feedPosts }.reloadData

/-- A new `Post` object. -/
def alloc (s : App) (post : Post) : App :=
  { s with objects := Function.update s.objects s.nextRef post, nextRef := s.nextRef + 1 }

section Handlers

variable [Platform]

/-- The block of the `childAdded` observer: the post is decoded and put in front. -/
def childAdded (s : App) (snapshot : DataSnapshot) : Except Trap App := do
  let post ← fetchedPost snapshot
  return (s.alloc post).insertPosts [s.nextRef]

/-! ### Cells -/

/-- `Post.getPicture` for a cell, with the object's `image` being `nil`. -/
def getPicture (s : App) (r : PostRef) (c : CellRef) : Except Trap App := do
  let imageUrl ← forceUnwrap "imageUrl!" (s.objects r).imageUrl
  match Platform.referenceForURL imageUrl with
  | none => .error .invalidURL
  | some reference =>
      return { s with pictureRequests := s.pictureRequests ++ [⟨c, r, reference⟩] }

/-- The picture part of `cellForRowAt`. -/
def loadPicture (s : App) (r : PostRef) (c : CellRef) : Except Trap App :=
  match (s.objects r).image with
  | none => s.getPicture r c
  | some image => .ok (s.modifyCell c fun cell => { cell with mainImageView := some image })

/-- The part of `cellForRowAt` about the poster's name. -/
def loadPosterName (s : App) (r : PostRef) (c : CellRef) : Except Trap App :=
  match (s.objects r).posterName with
  | none => do
      let posterId ← forceUnwrap "post.posterId!" (s.objects r).posterId
      return { s with userRequests := s.userRequests ++ [⟨c, r, posterId⟩] }
  | some name => .ok (s.modifyCell c fun cell =>
      { cell with posterNameLabel := some ("Created by: " ++ name) })

/-- The part of `cellForRowAt` about the number of interested users. -/
def loadInterested (s : App) (r : PostRef) (c : CellRef) : Except Trap App := do
  let postId ← forceUnwrap "post.id!" (s.objects r).id
  return { s with interestedRequests := s.interestedRequests ++ [⟨c, postId⟩] }

/-- `awakeFromNib`, which replaces all subviews of the cell, and `startLoadingView`. -/
def awakeCell (s : App) (r : PostRef) (c : CellRef) : App :=
  { s with
    cells := Function.update s.cells c { activityIndicator := true }
    bound := Function.update s.bound c (some r) }

/-- `tableView(_:cellForRowAt:)`, for the cell object that was dequeued. -/
def cellForRowAt (s : App) (row : ℕ) (c : CellRef) : Except Trap App :=
  match s.feed.posts[row]? with
  | none => .error .indexOutOfRange
  | some r => do
      let s ← (s.awakeCell r c).loadPicture r c
      let s := s.modifyCell c fun cell =>
        { cell with eventNameLabel := (s.objects r).eventName }
      let s ← s.loadPosterName r c
      s.loadInterested r c

/-- The completion of a picture download, with the data unless it failed. -/
def pictureReply (s : App) (q : PictureRequest) (data : Option Data) : App :=
  let s := { s with pictureRequests := s.pictureRequests.erase q }
  match data with
  | none => s
  | some data =>
      let s := s.modifyPost q.post fun post => { post with image := Platform.imageOfData data }
      s.modifyCell q.cell fun cell =>
        { cell with mainImageView := (s.objects q.post).image, activityIndicator := false }

/-- The completion of a `getUserWithId`, with the node read unless it was cancelled. -/
def userReply (s : App) (q : UserRequest) (node : Option Node) : Except Trap App :=
  let s := { s with userRequests := s.userRequests.erase q }
  match node with
  | none => .ok s
  | some node => do
      let user ← userOfSnapshot q.posterId node
      let username ← forceUnwrap "user.username!" user.username
      let s := s.modifyCell q.cell fun cell =>
        { cell with posterNameLabel := some ("Created by: " ++ username) }
      return s.modifyPost q.post fun post => { post with posterName := user.username }

omit [Platform] in
/-- The digits of a number can be read back. -/
theorem toString_injective : Function.Injective (toString : ℕ → String) := by
  intro m n h
  have hread := congrArg (fun s : String => Nat.ofDigitChars 10 s.toList 0) h
  simpa [Nat.toString_eq_repr] using hread

/-- The text for a number of interested users. -/
def interestedText (count : ℕ) : String :=
  if count = 1 then toString count ++ " person interested"
  else toString count ++ " people interested"

omit [Platform] in
theorem interestedText_injective : Function.Injective interestedText := by
  have hmixed : ∀ n : ℕ,
      toString 1 ++ " person interested" ≠ toString n ++ " people interested" := by
    intro n h
    have hlist := congrArg String.toList h
    rw [String.toList_append, String.toList_append] at hlist
    have htext := (List.append_inj' hlist (by simp)).2
    simp at htext
  intro m n h
  by_cases hm : m = 1 <;> by_cases hn : n = 1
  · exact hm.trans hn.symm
  · simp only [interestedText, hm, hn, if_true, if_false] at h
    exact absurd h (hmixed n)
  · simp only [interestedText, hm, hn, if_true, if_false] at h
    exact absurd h.symm (hmixed m)
  · simp only [interestedText, hm, hn, if_false] at h
    exact toString_injective ((String.append_left_inj _).mp h)

/-- The completion of a `getInterestedUsers`. -/
def interestedReply (s : App) (q : InterestedRequest) (node : Node) : Except Trap App := do
  let s := { s with interestedRequests := s.interestedRequests.erase q }
  let users ← interestedUsers node
  return s.modifyCell q.cell fun cell =>
    { cell with interestedLabel := some (interestedText users.length) }

/-! ### The detail screen -/

/-- `tableView(_:didSelectRowAt:)`, with the segue it performs and `prepare(for:)`. -/
def didSelectRowAt (s : App) (row : ℕ) : Except Trap App :=
  match s.feed.posts[row]? with
  | none => .error .indexOutOfRange
  | some r => .ok { s with feed.selectedPost := some r, detail := some { post := r } }

/-- `setInterestedButtonState`. -/
def setInterestedButtonState (s : App) (d : DetailViewController) : DetailViewController :=
  let userHasSaidInterested := (s.objects d.post).interestedIds.any (some · = s.currentUser)
  if userHasSaidInterested then
    { d with
      interestedButtonTitle := some "Im Already Interested"
      interestedButtonEnabled := false }
  else
    { d with
      interestedButtonTitle := some "I'm Interested!"
      interestedButtonEnabled := true }

/-- The text for the number of interested users on the detail screen. -/
def membersInterestedText (count : ℕ) : String := "Members Interested: " ++ toString count

omit [Platform] in
theorem membersInterestedText_injective : Function.Injective membersInterestedText :=
  fun _ _ h => toString_injective ((String.append_right_inj _).mp h)

/-- `populateLabelInfo`. -/
def populateLabelInfo (s : App) (d : DetailViewController) :
    Except Trap DetailViewController := do
  let post := s.objects d.post
  let posterName ← forceUnwrap "post.posterName!" post.posterName
  return { d with
    descriptionLabel := post.description
    interestedLabel := some (membersInterestedText post.interestedIds.length)
    posterNameLabel := some ("Posted By: " ++ posterName) }

/-- `DetailViewController.viewWillAppear`. -/
def detailWillAppear (s : App) (d : DetailViewController) : Except Trap App := do
  let post := s.objects d.post
  let title ← forceUnwrap "post.eventName!" post.eventName
  let d := { d with title := some title, mainImageView := post.image <|> Platform.defaultImage }
  let d ← s.populateLabelInfo (s.setInterestedButtonState d)
  return { s with detail := some d }

/-- `post.interestedIds.append(uid)`. -/
def appendInterested (s : App) (r : PostRef) (uid : Uid) : App :=
  s.modifyPost r fun post => { post with interestedIds := post.interestedIds ++ [uid] }

/-- The detail screen after a tap, with the new number of interested users. -/
def markInterested (d : DetailViewController) (count : ℕ) : DetailViewController :=
  { d with
    interestedButtonTitle := some "Already Interested"
    interestedButtonEnabled := false
    interestedLabel := some (membersInterestedText count) }

/-- `tappedInterested`: the write, and the state after the block that `updateInterested`
runs at once. -/
def tappedInterested (s : App) (d : DetailViewController) (key : Key) :
    Except Trap (Write × App) := do
  let postId ← forceUnwrap "post.id!" (s.objects d.post).id
  let userId ← forceUnwrap "(getCurrentUser()?.uid)!" s.currentUser
  let write := updateInterested postId userId key
  let s := s.appendInterested d.post userId
  let count := (s.objects d.post).interestedIds.length
  return (write, { s with detail := some (markInterested d count) })

end Handlers

end App

end MDBSocials
