import Mathlib.Data.List.Perm.Basic

/-!
# Reordering Independent Updates

Updates `α` act on a state `σ` through `f : σ → α → σ`, and some need others in front of
them: `needs a b` says that `a` has to come after `b`. An order of updates respects the
needs when no update comes before one that it needs.

## Main results

* `foldl_to_front`: an update moves in front of updates it commutes with.
* `Respects.foldl_eq`: two orders of the same updates that both respect the needs lead to
  the same state, when updates that do not need each other commute.
-/

namespace Reorder

variable {σ α : Type*} {f : σ → α → σ} {needs : α → α → Prop}

/-- No update comes before one that it needs. -/
def Respects (needs : α → α → Prop) (as : List α) : Prop :=
  as.Pairwise fun a b => ¬ needs a b

instance [∀ a b, Decidable (needs a b)] (as : List α) : Decidable (Respects needs as) :=
  inferInstanceAs (Decidable (as.Pairwise _))

/-- Two updates lead to the same state in both orders. -/
def Commute (f : σ → α → σ) (a b : α) : Prop := ∀ s, f (f s a) b = f (f s b) a

/-- An update moves in front of updates it commutes with. -/
theorem foldl_to_front {pre suf : List α} {a : α} (h : ∀ b ∈ pre, Commute f b a) (s : σ) :
    (pre ++ a :: suf).foldl f s = (a :: (pre ++ suf)).foldl f s := by
  induction pre generalizing s with
  | nil => rfl
  | cons b pre ih =>
      have hb : f (f s b) a = f (f s a) b := h b List.mem_cons_self s
      calc (b :: pre ++ a :: suf).foldl f s
          = (pre ++ a :: suf).foldl f (f s b) := rfl
        _ = (pre ++ suf).foldl f (f (f s b) a) :=
            ih (fun c hc => h c (List.mem_cons_of_mem _ hc)) (f s b)
        _ = (a :: (b :: pre ++ suf)).foldl f s := by
            rw [hb]
            rfl

/-- **Orders that respect the needs agree.** The first update of one order moves to the
front of the other, past updates that neither need it nor are needed by it. -/
theorem Respects.foldl_eq {as bs : List α} (ha : Respects needs as) (hb : Respects needs bs)
    (hperm : as.Perm bs)
    (hcomm : ∀ a ∈ as, ∀ b ∈ as, a ≠ b → ¬ needs a b → ¬ needs b a → Commute f a b) (s : σ) :
    as.foldl f s = bs.foldl f s := by
  induction as generalizing bs s with
  | nil => rw [hperm.nil_eq]
  | cons a as ih =>
      obtain ⟨pre, suf, rfl, hnotin⟩ :=
        List.eq_append_cons_of_mem (hperm.subset List.mem_cons_self)
      obtain ⟨ha₁, ha₂⟩ := List.pairwise_cons.mp ha
      obtain ⟨-, -, hb₁⟩ := List.pairwise_append.mp hb
      have hrest : as.Perm (pre ++ suf) := (hperm.trans List.perm_middle).cons_inv
      have hfront : ∀ b ∈ pre, Commute f b a := by
        intro b hbpre
        have hbas : b ∈ as := hrest.symm.subset (List.mem_append_left _ hbpre)
        have hne : a ≠ b := fun h => hnotin (h ▸ hbpre)
        have hab : Commute f a b := hcomm a List.mem_cons_self b (List.mem_cons_of_mem _ hbas) hne
          (ha₁ b hbas) (hb₁ b hbpre a List.mem_cons_self)
        exact fun s => (hab s).symm
      have hb₂ : Respects needs (pre ++ suf) :=
        hb.sublist ((List.Sublist.refl pre).append (List.sublist_cons_self a suf))
      rw [foldl_to_front hfront]
      exact ih ha₂ hb₂ hrest (fun c hc d hd => hcomm c (List.mem_cons_of_mem _ hc) d
        (List.mem_cons_of_mem _ hd)) (f s a)

end Reorder
