import Mathlib.Data.Finset.Option
import Mathlib.Data.Finset.Sort
import Mathlib.Data.Finset.Union

/-!
# Finite Trees as Maps of Their Leaves

A `PathTree κ β` is a finite tree whose edges carry keys in `κ` and whose leaves carry
values in `β`, given by the partial function from paths to leaf values. A node exists
exactly as long as it has a leaf below it, so a node without children is absent, and two
trees with the same leaves are equal (`ext`).

`sub p` is the subtree at a path, `set p v` replaces it, and `childKeys` enumerates the
children of the root in ascending key order.

## Main results

* `sub_set_self`, `sub_set_of_incomparable`, `sub_set_append`: what a write does to the
  subtree at the path written, elsewhere, and above it.
* `set_comm`: writes at incomparable paths commute.
* `children_set_cons`: a write of a nonempty tree below a child adds that child.
-/

/-- The elements of a finite set in ascending order. The sort is an insertion sort, so
that the kernel can evaluate it. -/
def Finset.ascending {κ : Type*} [LinearOrder κ] (s : Finset κ) : List κ :=
  Quot.liftOn s.val (List.insertionSort (· ≤ ·)) fun l₁ l₂ h => by
    have hp : (l₁.insertionSort (· ≤ ·)).Perm (l₂.insertionSort (· ≤ ·)) :=
      (List.perm_insertionSort _ l₁).trans (h.trans (List.perm_insertionSort _ l₂).symm)
    exact hp.eq_of_pairwise' (List.pairwise_insertionSort _ l₁)
      (List.pairwise_insertionSort _ l₂)

theorem Finset.ascending_eq_sort {κ : Type*} [LinearOrder κ] (s : Finset κ) :
    s.ascending = s.sort := by
  obtain ⟨m, hm⟩ := s
  induction m using Quot.inductionOn with
  | h l => exact (List.mergeSort_eq_insertionSort (· ≤ ·) l).symm

/-- A finite tree, as the partial function of its leaves. -/
structure PathTree (κ β : Type*) where
  /-- The value of the leaf at a path, if there is one. -/
  get : List κ → Option β
  /-- The paths of the leaves. -/
  dom : Finset (List κ)
  mem_dom : ∀ p, p ∈ dom ↔ (get p).isSome
  /-- No leaf lies below another leaf. -/
  prefixFree : ∀ p ∈ dom, ∀ q ∈ dom, p <+: q → p = q

namespace PathTree

variable {κ β : Type*}

/-- Trees with the same leaves are equal. -/
@[ext] theorem ext {t u : PathTree κ β} (h : ∀ p, t.get p = u.get p) : t = u := by
  have hget : t.get = u.get := funext h
  have hdom : t.dom = u.dom := Finset.ext fun p => by rw [t.mem_dom, u.mem_dom, h]
  cases t
  cases u
  cases hget
  cases hdom
  rfl

/-- The tree without leaves: the absent node. -/
def empty : PathTree κ β where
  get _ := none
  dom := ∅
  mem_dom := by simp
  prefixFree := by simp

/-- A single leaf. -/
def leaf (b : β) : PathTree κ β where
  get
    | [] => some b
    | _ :: _ => none
  dom := {[]}
  mem_dom := by rintro (_ | _) <;> simp
  prefixFree := by simp

@[simp] theorem get_empty (p : List κ) : (empty : PathTree κ β).get p = none := rfl

/-- A node is present when it has a leaf. -/
def Present (t : PathTree κ β) : Prop := t.dom.Nonempty

instance (t : PathTree κ β) : Decidable t.Present :=
  inferInstanceAs (Decidable t.dom.Nonempty)

theorem present_iff {t : PathTree κ β} : t.Present ↔ ∃ p, (t.get p).isSome := by
  simp [Present, Finset.Nonempty, t.mem_dom]

theorem present_leaf (b : β) : (leaf b : PathTree κ β).Present :=
  present_iff.mpr ⟨[], rfl⟩

section Operations

variable [DecidableEq κ]

/-- The subtree at a path. -/
def sub (t : PathTree κ β) (p : List κ) : PathTree κ β where
  get q := t.get (p ++ q)
  dom := (t.dom.filter (p <+: ·)).image (List.drop p.length)
  mem_dom q := by
    rw [Finset.mem_image, ← t.mem_dom]
    constructor
    · rintro ⟨_, hr, rfl⟩
      obtain ⟨hr, r, rfl⟩ := Finset.mem_filter.mp hr
      rwa [List.drop_left]
    · exact fun h => ⟨p ++ q, by simp [h], List.drop_left⟩
  prefixFree a ha b hb hab := by
    have hmem : ∀ c ∈ (t.dom.filter (p <+: ·)).image (List.drop p.length),
        p ++ c ∈ t.dom := by
      intro c hc
      obtain ⟨_, hr, rfl⟩ := Finset.mem_image.mp hc
      obtain ⟨hr, r, rfl⟩ := Finset.mem_filter.mp hr
      rwa [List.drop_left]
    exact List.append_cancel_left (t.prefixFree _ (hmem a ha) _ (hmem b hb)
      ((List.prefix_append_right_inj p).mpr hab))

@[simp] theorem get_sub (t : PathTree κ β) (p q : List κ) :
    (t.sub p).get q = t.get (p ++ q) := rfl

@[simp] theorem sub_nil (t : PathTree κ β) : t.sub [] = t := by
  ext1 q
  simp

theorem sub_sub (t : PathTree κ β) (p q : List κ) : (t.sub p).sub q = t.sub (p ++ q) := by
  ext1 r
  simp

/-- The tree with the subtree at `p` replaced by `v`. A leaf above `p` gives way. -/
def set (t : PathTree κ β) (p : List κ) (v : PathTree κ β) : PathTree κ β where
  get q :=
    if p <+: q then v.get (q.drop p.length)
    else if q <+: p then none
    else t.get q
  dom := (t.dom.filter fun q => ¬ p <+: q ∧ ¬ q <+: p) ∪ v.dom.image (p ++ ·)
  mem_dom q := by
    rw [Finset.mem_union, Finset.mem_filter, Finset.mem_image, t.mem_dom]
    by_cases hpq : p <+: q
    · obtain ⟨r, rfl⟩ := hpq
      simp [v.mem_dom]
    · have hne : ∀ a, p ++ a ≠ q := fun a h => hpq ⟨a, h⟩
      by_cases hqp : q <+: p <;> simp [hpq, hqp, hne]
  prefixFree a ha b hb hab := by
    simp only [Finset.mem_union, Finset.mem_filter, Finset.mem_image] at ha hb
    rcases ha with ⟨ha, hpa, hap⟩ | ⟨x, hx, rfl⟩ <;> rcases hb with ⟨hb, hpb, hbp⟩ | ⟨y, hy, rfl⟩
    · exact t.prefixFree a ha b hb hab
    · -- two prefixes of one path are comparable
      exact absurd (List.prefix_or_prefix_of_prefix hab (List.prefix_append p y))
        (by simp [hpa, hap])
    · exact absurd ((List.prefix_append p x).trans hab) hpb
    · rw [v.prefixFree x hx y hy ((List.prefix_append_right_inj p).mp hab)]

theorem get_set (t : PathTree κ β) (p q : List κ) (v : PathTree κ β) :
    (t.set p v).get q =
      if p <+: q then v.get (q.drop p.length) else if q <+: p then none else t.get q := rfl

@[simp] theorem get_set_append (t : PathTree κ β) (p q : List κ) (v : PathTree κ β) :
    (t.set p v).get (p ++ q) = v.get q := by
  simp [get_set]

theorem get_set_of_incomparable {t : PathTree κ β} {p q : List κ} {v : PathTree κ β}
    (hpq : ¬ p <+: q) (hqp : ¬ q <+: p) : (t.set p v).get q = t.get q := by
  rw [get_set, if_neg hpq, if_neg hqp]

/-- A write is read back at its path. -/
@[simp] theorem sub_set_self (t : PathTree κ β) (p : List κ) (v : PathTree κ β) :
    (t.set p v).sub p = v := by
  ext1 q
  simp

/-- A write leaves the subtrees at incomparable paths as they are. -/
theorem sub_set_of_incomparable {t : PathTree κ β} {p q : List κ} {v : PathTree κ β}
    (hpq : ¬ p <+: q) (hqp : ¬ q <+: p) : (t.set p v).sub q = t.sub q := by
  ext1 r
  refine get_set_of_incomparable (fun h => ?_) fun h => hqp ((List.prefix_append q r).trans h)
  rcases List.prefix_or_prefix_of_prefix h (List.prefix_append q r) with h | h
  · exact hpq h
  · exact hqp h

/-- A write below a node is a write in its subtree. -/
theorem sub_set_append (t : PathTree κ β) (p q : List κ) (v : PathTree κ β) :
    (t.set (p ++ q) v).sub p = (t.sub p).set q v := by
  ext1 r
  simp only [get_sub, get_set, List.prefix_append_right_inj]
  split
  · rw [List.length_append, ← List.drop_drop, List.drop_left]
  · rfl

/-- A write at the root replaces the tree. -/
@[simp] theorem set_nil (t v : PathTree κ β) : t.set [] v = v := by
  simpa using sub_set_self t [] v

@[simp] theorem get_nil_set_cons (t : PathTree κ β) (k : κ) (p : List κ) (v : PathTree κ β) :
    (t.set (k :: p) v).get [] = none := by
  simp [get_set]

/-- What a write below a child does to the children. -/
theorem sub_set_cons (t : PathTree κ β) (k k' : κ) (p : List κ) (v : PathTree κ β) :
    (t.set (k :: p) v).sub [k'] = if k' = k then (t.sub [k]).set p v else t.sub [k'] := by
  split
  · rename_i h
    subst h
    exact sub_set_append t [k'] p v
  · rename_i h
    exact sub_set_of_incomparable (by simp [List.cons_prefix_cons, Ne.symm h])
      (by simp [List.cons_prefix_cons, h])

/-- Writes at incomparable paths commute. -/
theorem set_comm {t : PathTree κ β} {p q : List κ} {v w : PathTree κ β}
    (hpq : ¬ p <+: q) (hqp : ¬ q <+: p) :
    (t.set p v).set q w = (t.set q w).set p v := by
  have hboth : ∀ {r : List κ}, p <+: r → q <+: r → False := fun hp hq =>
    (List.prefix_or_prefix_of_prefix hp hq).elim hpq hqp
  ext1 r
  simp only [get_set]
  by_cases hp : p <+: r <;> by_cases hq : q <+: r
  · exact (hboth hp hq).elim
  · have hrq : ¬ r <+: q := fun h => hpq (hp.trans h)
    simp [hp, hq, hrq]
  · have hrp : ¬ r <+: p := fun h => hqp (hq.trans h)
    simp [hp, hq, hrp]
  · by_cases hrp : r <+: p <;> by_cases hrq : r <+: q <;> simp [hp, hq, hrp, hrq]

/-- The node whose children are the given leaves. -/
def node (fields : List (κ × β)) : PathTree κ β :=
  fields.foldl (fun t f => t.set [f.1] (leaf f.2)) empty

/-- The keys of the children of the root. -/
def children (t : PathTree κ β) : Finset κ :=
  t.dom.biUnion fun p => p.head?.toFinset

theorem mem_children {t : PathTree κ β} {k : κ} :
    k ∈ t.children ↔ ∃ p, (t.get (k :: p)).isSome := by
  simp only [children, Finset.mem_biUnion, Option.mem_toFinset, Option.mem_def]
  constructor
  · rintro ⟨p, hp, hk⟩
    cases p with
    | nil => simp at hk
    | cons a p =>
        obtain rfl : a = k := Option.some.inj hk
        exact ⟨p, (t.mem_dom _).mp hp⟩
  · rintro ⟨p, hp⟩
    exact ⟨k :: p, (t.mem_dom _).mpr hp, rfl⟩

@[simp] theorem children_empty : (empty : PathTree κ β).children = ∅ := rfl

/-- There is nothing under a key that no child has. -/
theorem sub_eq_empty {t : PathTree κ β} {k : κ} (hk : k ∉ t.children) : t.sub [k] = empty := by
  ext1 p
  have hget : ¬ (t.get (k :: p)).isSome := fun h => hk (mem_children.mpr ⟨p, h⟩)
  exact Option.not_isSome_iff_eq_none.mp hget

theorem present_of_mem_children {t : PathTree κ β} {k : κ} (hk : k ∈ t.children) :
    t.Present := by
  obtain ⟨p, hp⟩ := mem_children.mp hk
  exact present_iff.mpr ⟨_, hp⟩

/-- A node with a child is no leaf. -/
theorem get_nil_of_mem_children {t : PathTree κ β} {k : κ} (hk : k ∈ t.children) :
    t.get [] = none := by
  obtain ⟨p, hp⟩ := mem_children.mp hk
  by_contra hroot
  have hmem : [] ∈ t.dom := (t.mem_dom _).mpr (Option.isSome_iff_ne_none.mpr hroot)
  have := t.prefixFree [] hmem (k :: p) ((t.mem_dom _).mpr hp) List.nil_prefix
  cases this

/-- A child that is a leaf is a child. -/
theorem mem_children_of_sub_eq_leaf {t : PathTree κ β} {k : κ} {b : β}
    (h : t.sub [k] = leaf b) : k ∈ t.children :=
  mem_children.mpr ⟨[], by rw [← List.singleton_append, ← get_sub, h]; rfl⟩

/-- Writing something below a child adds that child and keeps the others. -/
theorem children_set_cons {t : PathTree κ β} {k : κ} {p : List κ} {v : PathTree κ β}
    (hv : v.Present) : (t.set (k :: p) v).children = insert k t.children := by
  ext a
  rw [Finset.mem_insert, mem_children, mem_children]
  by_cases ha : a = k
  · subst ha
    obtain ⟨q, hq⟩ := present_iff.mp hv
    refine iff_of_true ⟨p ++ q, ?_⟩ (Or.inl rfl)
    rw [← List.cons_append, get_set_append]
    exact hq
  · have hne : ∀ q, (t.set (k :: p) v).get (a :: q) = t.get (a :: q) := fun q =>
      get_set_of_incomparable (by simp [List.cons_prefix_cons, Ne.symm ha])
        (by simp [List.cons_prefix_cons, ha])
    simp [hne, ha]

/-- The children of a node of fields are among its fields. -/
theorem mem_fields_of_mem_children {fields : List (κ × β)} {k : κ}
    (hk : k ∈ (node fields).children) : k ∈ fields.map Prod.fst := by
  have hfold : ∀ t : PathTree κ β,
      k ∈ (fields.foldl (fun t f => t.set [f.1] (leaf f.2)) t).children →
        k ∈ t.children ∨ k ∈ fields.map Prod.fst := by
    clear hk
    induction fields with
    | nil => exact fun t hk => Or.inl hk
    | cons f fields ih =>
        intro t hk
        rcases ih (t.set [f.1] (leaf f.2)) hk with hk | hk
        · rw [children_set_cons (present_leaf _)] at hk
          rcases Finset.mem_insert.mp hk with rfl | hk
          · exact Or.inr List.mem_cons_self
          · exact Or.inl hk
        · exact Or.inr (List.mem_cons_of_mem _ hk)
  exact (hfold empty hk).resolve_left (by simp)

end Operations

section Order

variable [LinearOrder κ]

/-- The keys of the children of the root, in ascending order. -/
def childKeys (t : PathTree κ β) : List κ := t.children.ascending

@[simp] theorem mem_childKeys {t : PathTree κ β} {k : κ} :
    k ∈ t.childKeys ↔ k ∈ t.children := by
  rw [childKeys, Finset.ascending_eq_sort, Finset.mem_sort]

theorem sortedLT_childKeys (t : PathTree κ β) : t.childKeys.SortedLT := by
  rw [childKeys, Finset.ascending_eq_sort]
  exact Finset.sortedLT_sort _

theorem nodup_childKeys (t : PathTree κ β) : t.childKeys.Nodup :=
  t.sortedLT_childKeys.nodup

/-- A write below a new child adds its key. -/
theorem childKeys_set_cons {t : PathTree κ β} {k : κ} (hk : k ∉ t.children) (p : List κ)
    {v : PathTree κ β} (hv : v.Present) :
    (t.set (k :: p) v).childKeys.Perm (k :: t.childKeys) := by
  have hnodup : (k :: t.childKeys).Nodup :=
    List.nodup_cons.mpr ⟨by simpa using hk, t.nodup_childKeys⟩
  refine (List.perm_ext_iff_of_nodup (nodup_childKeys _) hnodup).mpr fun a => ?_
  rw [mem_childKeys, children_set_cons hv]
  simp

end Order

end PathTree
