import Mathlib.Data.Set.Finite.Basic
import Mathlib.Data.String.Basic
import MDBSocials.Lib.PathTree

/-!
# Swift Values and the Firebase Database

The parts of Swift and of the Firebase SDK the application reads and writes: traps,
database nodes and what a snapshot of one looks like to Swift, and the writes made with
`updateChildValues`.

A database node is a `PathTree` of scalars. Swift sees it through `Node.value`: an
absent node is `null`, a leaf is its scalar, and an inner node is a dictionary, or an
array when its keys look like array indices.

What lies outside the repository and can differ from run to run or device to device (the
iteration order of a dictionary, the text of a value, the image codec, the download URLs
of Storage, the date formatter) is a `Platform`, with the documented laws the code relies
on as its fields.
-/

namespace MDBSocials

/-! ### Traps -/

/-- The reasons for which the Swift runtime ends the process. -/
inductive Trap
  | forcedUnwrap (expression : String)
  | forcedCast (expression : String)
  | indexOutOfRange
  | invalidURL
  deriving DecidableEq, Repr

/-- The `!` operator. -/
def forceUnwrap {α : Type*} (expression : String) : Option α → Except Trap α
  | some a => .ok a
  | none => .error (.forcedUnwrap expression)

@[simp] theorem forceUnwrap_some {α : Type*} (e : String) (a : α) :
    forceUnwrap e (some a) = .ok a := rfl

@[simp] theorem forceUnwrap_none {α : Type*} (e : String) :
    forceUnwrap e (none : Option α) = .error (.forcedUnwrap e) := rfl

/-- A handler that runs to its end ran each of its statements to the end. -/
theorem bind_eq_ok {ε α β : Type} {x : Except ε α} {f : α → Except ε β} {b : β} :
    x >>= f = .ok b ↔ ∃ a, x = .ok a ∧ f a = .ok b := by
  cases x with
  | error e => exact ⟨nofun, fun ⟨_, h, _⟩ => nomatch h⟩
  | ok a => exact ⟨fun h => ⟨a, rfl, h⟩, fun ⟨_, h, hf⟩ => Except.ok.inj h ▸ hf⟩

theorem map_eq_ok {ε α β : Type*} {x : Except ε α} {f : α → β} {b : β} :
    x.map f = .ok b ↔ ∃ a, x = .ok a ∧ f a = b := by
  cases x <;> simp [Except.map]

theorem toOption_eq_some {ε α : Type*} {x : Except ε α} {a : α} :
    x.toOption = some a ↔ x = .ok a := by
  cases x <;> simp [Except.toOption]

theorem forceUnwrap_eq_ok {α : Type*} {e : String} {x : Option α} {a : α} :
    forceUnwrap e x = .ok a ↔ x = some a := by
  cases x <;> simp [forceUnwrap]

/-! ### Database nodes -/

/-- A value stored at a leaf of the database. -/
inductive Scalar
  | string (s : String)
  | number (n : ℤ)
  | bool (b : Bool)
  deriving DecidableEq, Repr

abbrev Key := String

abbrev Path := List Key

/-- A node of the database, with everything below it. -/
abbrev Node := PathTree Key Scalar

/-- Keys that may make Firebase present a node as an array. Keys made by
`childByAutoId` never are. -/
def integerLike (k : Key) : Bool := k.toList.all Char.isDigit

/-- There is always one more key. -/
theorem exists_key (ks : Finset Key) : ∃ key, key ∉ ks ∧ integerLike key = false := by
  have hinj : Function.Injective fun n : ℕ => String.ofList (List.replicate (n + 1) '-') :=
    fun m n h => by simpa using congrArg List.length (String.ofList_injective h)
  obtain ⟨key, ⟨n, rfl⟩, hkey⟩ := (Set.infinite_range_of_injective hinj).exists_notMem_finset ks
  exact ⟨_, hkey, by simp [integerLike, List.replicate_succ]⟩

/-- The bytes of a file. -/
abbrev Data := List UInt8

/-- A decoded picture, reduced to its pixels: a PNG file keeps them, but neither the scale nor
the orientation of a `UIImage`. -/
structure UIImage where
  bitmap : Data
  deriving DecidableEq, Repr

/-- A location in Storage: the components of its full path. -/
abbrev StoragePath := List String

/-- The device, the Swift runtime and the Firebase services, as far as the application
depends on them. -/
class Platform where
  /-- `String(describing:)` of a value read from the database. -/
  describing : Node → String
  describing_string : ∀ s, describing (.leaf (.string s)) = s
  /-- The order in which a `for` loop visits the entries of a dictionary. -/
  dictionaryOrder : List (Key × Node) → List (Key × Node)
  dictionaryOrder_perm : ∀ l, (dictionaryOrder l).Perm l
  /-- Whether a node with these keys is presented as an array. -/
  isArray : Finset Key → Bool
  integerLike_of_isArray : ∀ ks, isArray ks = true → ∀ k ∈ ks, integerLike k = true
  /-- `UIImagePNGRepresentation`. -/
  pngRepresentation : UIImage → Option Data
  /-- `UIImage(data:)`. -/
  imageOfData : Data → Option UIImage
  /-- PNG is lossless for the pixels. -/
  imageOfData_png : ∀ i d, pngRepresentation i = some d → imageOfData d = some i
  /-- `UIImage(named: "defaultImage")`. -/
  defaultImage : Option UIImage
  /-- The download URL of the object at a location. -/
  downloadURL : StoragePath → String
  /-- `Storage.reference(forURL:)`, `none` when it raises on the URL. -/
  referenceForURL : String → Option StoragePath
  referenceForURL_downloadURL : ∀ p, referenceForURL (downloadURL p) = some p
  /-- The type of `Date`. -/
  Date : Type
  /-- The date formatted as `"MMM d, h:mm a"`. -/
  dateString : Date → String

/-- What Swift sees of a node: `snapshot.value`. A dictionary keeps its node. -/
inductive SnapshotValue
  | null
  | scalar (s : Scalar)
  | array
  | dictionary (d : Node)

section Snapshots

variable [Platform]

/-- The `value` of a snapshot of the node. -/
def Node.value (t : Node) : SnapshotValue :=
  match t.get [] with
  | some s => .scalar s
  | none =>
      if t.children = ∅ then .null
      else if Platform.isArray t.children then .array
      else .dictionary t

/-- `value as? String`. -/
def Node.asString? (t : Node) : Option String :=
  match t.value with
  | .scalar (.string s) => some s
  | _ => none

/-- `value as! String`. -/
def Node.asString (expression : String) (t : Node) : Except Trap String :=
  match t.asString? with
  | some s => .ok s
  | none => .error (.forcedCast expression)

/-- `value as? [String: Any]`. -/
def Node.asDictionary? (t : Node) : Option Node :=
  match t.value with
  | .dictionary d => some d
  | _ => none

/-- `value as! [String: Any]`. -/
def Node.asDictionary (expression : String) (t : Node) : Except Trap Node :=
  match t.asDictionary? with
  | some d => .ok d
  | none => .error (.forcedCast expression)

/-- The subscript of a dictionary. -/
def Node.subscript (d : Node) (k : Key) : Option Node :=
  if (d.sub [k]).Present then some (d.sub [k]) else none

/-- The entries of a dictionary in the order of a `for` loop. -/
def Node.entries (d : Node) : List (Key × Node) :=
  Platform.dictionaryOrder (d.childKeys.map fun k => (k, d.sub [k]))

theorem asDictionary?_eq_some {t d : Node} :
    t.asDictionary? = some d ↔ t.value = .dictionary d := by
  rw [Node.asDictionary?]
  split
  · rename_i h
    simp [h]
  · rename_i h
    exact ⟨nofun, fun hv => absurd hv (h d)⟩

/-- A node with a child whose key is not integer-like is a dictionary. -/
theorem value_of_key {t : Node} {k : Key} (hk : k ∈ t.children)
    (hkey : integerLike k = false) : t.value = .dictionary t := by
  have hroot : t.get [] = none := PathTree.get_nil_of_mem_children hk
  have hne : t.children ≠ ∅ := Finset.ne_empty_of_mem hk
  have harr : Platform.isArray t.children = false := by
    by_contra h
    rw [Bool.not_eq_false] at h
    rw [Platform.integerLike_of_isArray _ h k hk] at hkey
    cases hkey
  simp [Node.value, hroot, hne, harr]

theorem entries_perm (d : Node) :
    d.entries.Perm (d.childKeys.map fun k => (k, d.sub [k])) :=
  Platform.dictionaryOrder_perm _

end Snapshots

/-! ### Storage -/

/-- The `maxSize` of `getData`: 30 MiB. -/
def maxSize : ℕ := 30 * 1024 * 1024

/-- `getData` of the object at a location: an error when there is none or it is too
large. -/
def getData (storage : StoragePath → Option Data) (ref : StoragePath) : Option Data :=
  (storage ref).filter fun data => data.length ≤ maxSize

theorem getData_eq_some {storage : StoragePath → Option Data} {ref : StoragePath}
    {data : Data} :
    getData storage ref = some data ↔ storage ref = some data ∧ data.length ≤ maxSize := by
  rw [getData, Option.filter_eq_some_iff, decide_eq_true_iff]

/-! ### Snapshots and writes -/

/-- A `DataSnapshot`: the key of a location and the node found there. -/
structure DataSnapshot where
  key : Key
  node : Node

/-- The snapshots of the children of a location, in ascending key order. -/
def childSnapshots (db : Node) (location : Path) : List DataSnapshot :=
  (db.sub location).childKeys.map fun k => ⟨k, db.sub (location ++ [k])⟩

@[simp] theorem map_key_childSnapshots (db : Node) (location : Path) :
    (childSnapshots db location).map DataSnapshot.key = (db.sub location).childKeys := by
  simp [childSnapshots, Function.comp_def]

theorem mem_childSnapshots {db : Node} {location : Path} {snap : DataSnapshot} :
    snap ∈ childSnapshots db location ↔
      snap.key ∈ (db.sub location).children ∧ snap.node = db.sub (location ++ [snap.key]) := by
  simp only [childSnapshots, List.mem_map, PathTree.mem_childKeys]
  constructor
  · rintro ⟨k, hk, rfl⟩
    exact ⟨hk, rfl⟩
  · rintro ⟨hk, hnode⟩
    exact ⟨snap.key, hk, by rw [← hnode]⟩

/-- A call of `updateChildValues`: the reference it is made on, and the values for paths
relative to it. -/
structure Update where
  ref : Path
  values : List (Path × Node)

/-- `updateChildValues` replaces each given child and leaves the others. -/
def Update.apply (db : Node) (u : Update) : Node :=
  u.values.foldl (fun t v => t.set (u.ref ++ v.1) v.2) db

/-- The database after a sequence of updates. -/
def applyAll (db : Node) (us : List Update) : Node := us.foldl Update.apply db

theorem applyAll_snoc (db : Node) (us : List Update) (u : Update) :
    applyAll db (us ++ [u]) = u.apply (applyAll db us) := by
  simp [applyAll]

end MDBSocials
