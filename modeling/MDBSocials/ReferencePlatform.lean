import MDBSocials.Firebase

/-!
# A Reference Platform

A concrete `Platform` on which every definition of the model can be evaluated: a PNG file
is the bitmap itself, dictionaries are iterated from the last key to the first, a node is
an array when all its keys are integer-like, and a download URL is the path with every
character escaped.
-/

namespace MDBSocials

/-- The path with a slash in front of each component and every character escaped. -/
def escapePath : List (List Char) → List Char
  | [] => []
  | c :: cs => '/' :: (c.flatMap fun x => ['%', x]) ++ escapePath cs

/-- The rest of the component being read, and the components after it. -/
def unescapePath : List Char → Option (List Char × List (List Char))
  | [] => some ([], [])
  | '/' :: url => (unescapePath url).map fun r => ([], r.1 :: r.2)
  | '%' :: x :: url => (unescapePath url).map fun r => (x :: r.1, r.2)
  | _ => none

theorem unescapePath_component (c : List Char) (url : List Char) :
    unescapePath ((c.flatMap fun x => ['%', x]) ++ url) =
      (unescapePath url).map fun r => (c ++ r.1, r.2) := by
  induction c with
  | nil => simp
  | cons x c ih =>
      rw [List.flatMap_cons, List.append_assoc]
      simp only [List.cons_append, List.nil_append, unescapePath, ih, Option.map_map]
      rfl

/-- Unescaping reads back the path. -/
theorem unescapePath_escapePath (p : List (List Char)) :
    unescapePath (escapePath p) = some ([], p) := by
  induction p with
  | nil => rfl
  | cons c cs ih =>
      simp [escapePath, unescapePath, unescapePath_component, ih]

/-- A platform on which the model can be evaluated. -/
@[reducible] def Platform.reference : Platform where
  describing t :=
    match t.get [] with
    | some (.string s) => s
    | some (.number n) => toString n
    | some (.bool b) => toString b
    | none => "a dictionary"
  describing_string _ := rfl
  dictionaryOrder l := l.reverse
  dictionaryOrder_perm l := l.reverse_perm
  isArray ks := decide (∀ k ∈ ks, integerLike k = true)
  integerLike_of_isArray _ h := of_decide_eq_true h
  pngRepresentation i := some i.bitmap
  imageOfData d := some ⟨d⟩
  imageOfData_png i d h := by
    obtain rfl := Option.some.inj h
    rfl
  defaultImage := none
  downloadURL p := String.ofList (escapePath (p.map String.toList))
  referenceForURL url := (unescapePath url.toList).map fun r => r.2.map String.ofList
  referenceForURL_downloadURL p := by
    simp [unescapePath_escapePath, Function.comp_def]
  Date := String
  dateString d := d

end MDBSocials
