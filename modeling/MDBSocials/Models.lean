import MDBSocials.Firebase

/-!
# The Models

The classes `Post` and `UserModel` of the application, and `Post.init`, the decoder of a
post's dictionary. The objects are values here; the sharing of `Post` objects between
the feed, its cells and the detail screen is that of the references in
`MDBSocials.App`.
-/

namespace MDBSocials

/-- The contents of a `Post` object. -/
structure Post where
  date : Option String := none
  description : Option String := none
  eventName : Option String := none
  imageUrl : Option String := none
  posterId : Option String := none
  posterName : Option String := none
  id : Option String := none
  image : Option UIImage := none
  interestedIds : List String := []
  deriving DecidableEq, Repr

/-- What a `Post` object holds of its record: all but what the application fills in or
appends to later. -/
def Post.record (post : Post) : Post :=
  { post with posterName := none, image := none, interestedIds := [] }

/-- The contents of a `UserModel` object. -/
structure UserModel where
  id : Option String
  name : Option String
  username : Option String
  email : Option String
  deriving DecidableEq, Repr

section Decoder

variable [Platform]

/-- `postDict![key] as? String`. -/
def stringField (postDict : Node) (key : Key) : Option String :=
  (postDict.subscript key).bind Node.asString?

/-- The users a post's dictionary lists under `Interested`: absent means none, and
anything but a dictionary traps. -/
def interestedField (postDict : Node) : Except Trap (List String) :=
  match postDict.subscript "Interested" with
  | none => .ok []
  | some interestedIDs => do
      let dict ← interestedIDs.asDictionary "interestedIDs as! Dictionary<String, Any>"
      return dict.entries.map fun entry => Platform.describing entry.2

/-- `Post(id:postDict:)`. -/
def Post.init (id : String) (postDict : Option Node) : Except Trap Post :=
  match postDict with
  | none => .ok { id := some id }
  | some postDict => do
      let interestedIds ← interestedField postDict
      return {
        id := some id
        date := stringField postDict "date"
        description := stringField postDict "description"
        eventName := stringField postDict "name"
        imageUrl := stringField postDict "pictureURL"
        posterId := stringField postDict "posterId"
        interestedIds := interestedIds }

/-- A dictionary is decoded when the users listed in it are. -/
theorem Post.init_of_interested {postDict : Node} {ids : List String}
    (h : interestedField postDict = .ok ids) (id : String) :
    ∃ post, Post.init id (some postDict) = .ok post ∧ post.interestedIds = ids := by
  rw [Post.init, h]
  exact ⟨_, rfl, rfl⟩

/-- The object made for a post has its id, whatever the dictionary holds. -/
theorem Post.id_init {id : String} {postDict : Option Node} {post : Post}
    (h : Post.init id postDict = .ok post) : post.id = some id := by
  cases postDict with
  | none =>
      obtain rfl := Except.ok.inj h
      rfl
  | some d =>
      rw [Post.init] at h
      cases hi : interestedField d with
      | error e => rw [hi] at h; cases h
      | ok ids =>
          rw [hi] at h
          obtain rfl := Except.ok.inj h
          rfl

/-- A freshly decoded post has neither a picture nor its poster's name. -/
theorem Post.posterName_init {id : String} {postDict : Option Node} {post : Post}
    (h : Post.init id postDict = .ok post) : post.posterName = none ∧ post.image = none := by
  cases postDict with
  | none =>
      obtain rfl := Except.ok.inj h
      exact ⟨rfl, rfl⟩
  | some d =>
      rw [Post.init] at h
      cases hi : interestedField d with
      | error e => rw [hi] at h; cases h
      | ok ids =>
          rw [hi] at h
          obtain rfl := Except.ok.inj h
          exact ⟨rfl, rfl⟩

end Decoder

end MDBSocials
