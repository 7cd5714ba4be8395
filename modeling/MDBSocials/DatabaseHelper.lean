import MDBSocials.Models

/-!
# The Database Helper

The calls of `FirebaseDatabaseHelper`: the three writes the application makes
(`newPost`, `createNewUser`, `updateInterested`), the storage location of a picture, and
the decoders of what it reads (`fetchPosts`, `getUserWithId`, `getInterestedUsers`).

A `Write` is a call as it is handed to `updateChildValues`; `Write.path` and
`Write.value` say which single subtree it replaces and by what (`apply_write`).
-/

namespace MDBSocials

abbrev Uid := String

/-- The dictionary `newPost` writes. -/
structure NewPost where
  name : String
  pictureURL : String
  posterId : Uid
  description : String
  date : String
  deriving DecidableEq, Repr

/-- The dictionary `createNewUser` writes. -/
structure NewUser where
  name : String
  username : String
  email : String
  deriving DecidableEq, Repr

/-- The calls of `updateChildValues` the application makes. `key` is the key that
`childByAutoId` made for the call. -/
inductive Write
  | newPost (key : Key) (post : NewPost)
  | createNewUser (uid : Uid) (user : NewUser)
  | updateInterested (postId key : Key) (userId : Uid)
  deriving DecidableEq, Repr

/-- The node for the dictionary of a new post. -/
def NewPost.node (p : NewPost) : Node :=
  .node [("name", .string p.name), ("pictureURL", .string p.pictureURL),
    ("posterId", .string p.posterId), ("description", .string p.description),
    ("date", .string p.date)]

/-- The node for the dictionary of a new user. -/
def NewUser.node (u : NewUser) : Node :=
  .node [("name", .string u.name), ("username", .string u.username),
    ("email", .string u.email)]

/-- The arguments of `updateChildValues`. The slashes around the key in
`"/\(key)/"` are no part of the path. -/
def Write.update : Write → Update
  | .newPost key post => ⟨["Posts"], [([key], post.node)]⟩
  | .createNewUser uid user => ⟨["User"], [([uid], user.node)]⟩
  | .updateInterested postId key userId =>
      ⟨["Posts", postId, "Interested"], [([key], .leaf (.string userId))]⟩

/-- The key that `childByAutoId` made for a call. -/
def Write.autoKey : Write → Option Key
  | .newPost key _ => some key
  | .createNewUser _ _ => none
  | .updateInterested _ key _ => some key

/-- The location a write replaces. -/
def Write.path : Write → Path
  | .newPost key _ => ["Posts", key]
  | .createNewUser uid _ => ["User", uid]
  | .updateInterested postId key _ => ["Posts", postId, "Interested", key]

/-- What a write puts there. -/
def Write.value : Write → Node
  | .newPost _ post => post.node
  | .createNewUser _ user => user.node
  | .updateInterested _ _ userId => .leaf (.string userId)

/-- Every write replaces a single subtree. -/
theorem apply_write (db : Node) (w : Write) : w.update.apply db = db.set w.path w.value := by
  cases w <;> rfl

/-- The database after a sequence of writes. -/
def applyWrites (db : Node) (ws : List Write) : Node := applyAll db (ws.map Write.update)

@[simp] theorem applyWrites_nil (db : Node) : applyWrites db [] = db := rfl

theorem applyWrites_snoc (db : Node) (ws : List Write) (w : Write) :
    applyWrites db (ws ++ [w]) = (applyWrites db ws).set w.path w.value := by
  rw [applyWrites, List.map_append, List.map_singleton, applyAll_snoc, apply_write]
  rfl

/-! ### Pictures in Storage -/

/-- The characters of `CharacterSet.whitespaces`: general category Zs, and the tab. -/
def isWhitespace (c : Char) : Bool :=
  c ∈ ['\t', ' ', '\u00A0', '\u1680', '\u2000', '\u2001', '\u2002', '\u2003', '\u2004',
    '\u2005', '\u2006', '\u2007', '\u2008', '\u2009', '\u200A', '\u202F', '\u205F',
    '\u3000']

/-- `trimmingCharacters(in: .whitespaces)`. -/
def trimmingWhitespaces (s : String) : String :=
  .ofList ((s.toList.dropWhile isWhitespace).reverse.dropWhile isWhitespace).reverse

/-- `StorageReference.child`: leading and trailing slashes are removed, and consecutive
slashes count as one. -/
def storageChild (ref : StoragePath) (path : String) : StoragePath :=
  ref ++ ((path.toList.splitOn '/').filter (· ≠ [])).map String.ofList

/-- The location `newPostWithImage` uploads the picture of a post to. -/
def imageRef (name : String) : StoragePath :=
  storageChild [] ("postImages/" ++ trimmingWhitespaces name ++ ".png")

/-! ### Calls and decoders -/

section Calls

variable [Platform]

/-- The arguments of `newPostWithImage`. -/
structure Submission where
  selectedImage : UIImage
  name : String
  description : String
  date : Platform.Date

/-- A `putData` of `newPostWithImage`, with what its completion captures. The code does
not keep the `submitter`, the user who was signed in at the call. -/
structure Upload where
  submission : Submission
  data : Data
  submitter : Option Uid

/-- `newPostWithImage`, up to the upload. -/
def newPostWithImage (currentUser : Option Uid) (submission : Submission) :
    Except Trap Upload := do
  let data ← forceUnwrap "UIImagePNGRepresentation(selectedImage)!"
    (Platform.pngRepresentation submission.selectedImage)
  return { submission, data, submitter := currentUser }

/-- `newPost`, which an upload's completion handler calls: the poster is whoever is
signed in at that moment. -/
def newPost (currentUser : Option Uid) (name description pictureURL : String)
    (date : Platform.Date) (key : Key) : Except Trap Write := do
  let posterId ← forceUnwrap "posterId!" currentUser
  return .newPost key
    { name, pictureURL, posterId, description, date := Platform.dateString date }

/-- The location an upload's picture is put at. -/
def Upload.imageRef (u : Upload) : StoragePath := MDBSocials.imageRef u.submission.name

/-- The completion of an upload that succeeded. `metadataURL` is the `downloadURL()` of the
upload's metadata, which may be `nil`. -/
def Upload.succeeded (u : Upload) (metadataURL : Option String) (currentUser : Option Uid)
    (key : Key) : Except Trap Write := do
  let downloadURL ← forceUnwrap "metadata.downloadURL()!" metadataURL
  newPost currentUser u.submission.name u.submission.description downloadURL
    u.submission.date key

/-- The dictionary that `newPost` writes for an upload when `uid` is signed in. -/
def Upload.post (u : Upload) (uid : Uid) : NewPost where
  name := u.submission.name
  pictureURL := Platform.downloadURL u.imageRef
  posterId := uid
  description := u.submission.description
  date := Platform.dateString u.submission.date

theorem Upload.succeeded_eq_ok {u : Upload} {currentUser : Option Uid} {key : Key}
    {write : Write} :
    u.succeeded (some (Platform.downloadURL u.imageRef)) currentUser key = .ok write ↔
      ∃ uid, currentUser = some uid ∧ write = .newPost key (u.post uid) := by
  cases currentUser with
  | none => simp [Upload.succeeded, newPost, bind, Except.bind]
  | some uid =>
      constructor
      · intro h
        exact ⟨uid, rfl, (Except.ok.inj h).symm⟩
      · rintro ⟨uid', huid, rfl⟩
        obtain rfl := Option.some.inj huid
        rfl

/-- `createNewUser`. -/
def createNewUser (currentUser : Option Uid) (name username email : String) :
    Except Trap Write := do
  let uid ← forceUnwrap "getCurrentUser()!" currentUser
  return .createNewUser uid { name, username, email }

/-- `updateInterested`. -/
def updateInterested (postId : Key) (userId : Uid) (key : Key) : Write :=
  .updateInterested postId key userId

/-- The block of `fetchPosts`: the post decoded from a child added under `Posts`. -/
def fetchedPost (snapshot : DataSnapshot) : Except Trap Post :=
  match snapshot.node.value with
  | .null => Post.init snapshot.key none
  | .dictionary postDict => Post.init snapshot.key (some postDict)
  | _ => .error (.forcedCast "snapshot.value as! [String : Any]?")

/-- The block of `getUserWithId`: the user decoded from `User/<id>`. -/
def userOfSnapshot (id : Uid) (node : Node) : Except Trap UserModel := do
  let field := fun k => node.asDictionary?.bind (stringField · k)
  let username ← forceUnwrap "(value?[\"username\"] as? String)!" (field "username")
  let name ← forceUnwrap "(value?[\"name\"] as? String)!" (field "name")
  let email ← forceUnwrap "(value?[\"email\"] as? String)!" (field "email")
  return { id := some id, username := some username, name := some name, email := some email }

/-- The block of `getInterestedUsers`: the children of `Interested` in key order. -/
def interestedUsers (node : Node) : Except Trap (List String) :=
  node.childKeys.mapM fun k => Node.asString "snap.value as! String" (node.sub [k])

end Calls

end MDBSocials
