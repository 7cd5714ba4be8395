import Mathlib.Order.Filter.AtTopBot.Basic
import Mathlib.Order.Filter.Finite
import MDBSocials.Lib.Machine
import MDBSocials.Lib.Replica

/-!
# Infinite Runs

A machine that never stops visits infinitely many states. What becomes of it depends on what
it does again and again: a rank that no step raises, and that some later step lowers as long
as it is not zero, comes to zero and stays there.

## Main results

* `Forever.invariant`: the invariant rule.
* `exists_forever`: a run that ends where a step leads back goes on forever.
* `eventually_eq_zero`: the rank rule.
* `eventually_settled`: a replicated log in which nothing more is issued settles for good,
  when each queue and each client is served again and again.
-/

open Filter

namespace Machine

variable {σ α : Type*} {M : Machine σ α} {ss : ℕ → σ} {as : ℕ → α}

/-- An infinite run: its states, and the actions between them. -/
def Forever (M : Machine σ α) (ss : ℕ → σ) (as : ℕ → α) : Prop :=
  ∀ n, M.step (ss n) (as n) = some (ss (n + 1))

/-- Up to any state it is a run. -/
theorem Forever.run (h : M.Forever ss as) (n : ℕ) :
    M.run (ss 0) ((List.range n).map as) = some (ss n) := by
  induction n with
  | zero => rfl
  | succ n ih =>
      rw [List.range_succ, List.map_append]
      exact run_snoc_eq_some.mpr ⟨ss n, ih, h n⟩

/-- **The invariant rule**: what guarded steps preserve holds at all times. -/
theorem Forever.invariant {G : σ → α → Prop} {I : σ → Prop} (h : M.Forever ss as)
    (hstep : ∀ s a t, I s → G s a → M.step s a = some t → I t)
    (hG : ∀ n, G (ss n) (as n)) (hI : I (ss 0)) (n : ℕ) : I (ss n) := by
  induction n with
  | zero => exact hI
  | succ n ih => exact hstep _ _ _ ih (hG n) (h n)

/-- A run that ends where a step leads back goes on forever. -/
theorem exists_forever {G : σ → α → Prop} {s t : σ} {bs : List α} {b : α}
    (hrun : M.run s bs = some t) (hG : M.Guarded G s bs) (hstep : M.step t b = some t)
    (hb : G t b) : ∃ ss as, M.Forever ss as ∧ ss 0 = s ∧ (∀ n, G (ss n) (as n)) ∧
      ∀ n ≥ bs.length, ss n = t ∧ as n = b := by
  induction bs generalizing s with
  | nil =>
      obtain rfl := Option.some.inj hrun
      exact ⟨fun _ => s, fun _ => b, fun _ => hstep, rfl, fun _ => hb, fun _ _ => ⟨rfl, rfl⟩⟩
  | cons a bs ih =>
      obtain ⟨u, hu, hrun⟩ := run_cons_eq_some.mp hrun
      obtain ⟨ss, as, hforever, rfl, hguard, hend⟩ := ih hrun (hG.2 u hu)
      refine ⟨fun n => n.casesOn s ss, fun n => n.casesOn a as, fun n => ?_, rfl, fun n => ?_,
        fun n hn => ?_⟩
      · cases n with
        | zero => exact hu
        | succ n => exact hforever n
      · cases n with
        | zero => exact hG.1
        | succ n => exact hguard n
      · cases n with
        | zero => exact absurd hn (by simp)
        | succ n => exact hend n (Nat.le_of_succ_le_succ hn)

/-- **The rank rule.** -/
theorem eventually_eq_zero {f : ℕ → ℕ} (hle : ∀ᶠ n in atTop, f (n + 1) ≤ f n)
    (hlt : ∃ᶠ n in atTop, f n = 0 ∨ f (n + 1) < f n) : ∀ᶠ n in atTop, f n = 0 := by
  obtain ⟨N, hN⟩ := eventually_atTop.mp hle
  have hanti : ∀ m ≥ N, ∀ n ≥ m, f n ≤ f m := by
    intro m hm n hn
    induction n, hn using Nat.le_induction with
    | base => exact le_rfl
    | succ n hn ih => exact (hN n (hm.trans hn)).trans ih
  -- the rank reaches zero, by induction on a bound of it
  have hzero : ∀ k, ∀ n ≥ N, f n ≤ k → ∃ m ≥ n, f m = 0 := by
    intro k
    induction k with
    | zero => exact fun n _ hk => ⟨n, le_rfl, Nat.le_zero.mp hk⟩
    | succ k ih =>
        intro n hn hk
        obtain ⟨m, hm, hdone | hlower⟩ := frequently_atTop.mp hlt n
        · exact ⟨m, hm, hdone⟩
        · have hbound : f (m + 1) ≤ k :=
            Nat.le_of_lt_succ (hlower.trans_le ((hanti n hn m hm).trans hk))
          obtain ⟨m', hm', hdone⟩ := ih (m + 1) (by omega) hbound
          exact ⟨m', by omega, hdone⟩
  obtain ⟨m, hm, hdone⟩ := hzero (f N) N le_rfl le_rfl
  exact eventually_atTop.mpr ⟨m, fun n hn => Nat.le_zero.mp (hdone ▸ hanti m hm n hn)⟩

/-- What no step changes any more has come to its value. -/
theorem eventually_const {f : ℕ → σ} (h : ∀ᶠ n in atTop, f (n + 1) = f n) :
    ∃ x, ∀ᶠ n in atTop, f n = x := by
  obtain ⟨N, hN⟩ := eventually_atTop.mp h
  refine ⟨f N, eventually_atTop.mpr ⟨N, fun n hn => ?_⟩⟩
  induction n, hn using Nat.le_induction with
  | base => rfl
  | succ n hn ih => exact (hN n hn).trans ih

end Machine

namespace Replica

variable {ι U : Type*} [DecidableEq ι] {r r' : Replica ι U} {e : Event ι U} {c : ι}

/-! ### Steps that issue nothing -/

/-- The log was left alone, or something happened to it that issues nothing. -/
def Rests (r r' : Replica ι U) : Prop :=
  r' = r ∨ ∃ e, r.step e = some r' ∧ ∀ c u, e ≠ .issue c u

/-- No queue gets longer. -/
theorem Rests.pending_length_le (h : Rests r r') (c : ι) :
    (r'.pending c).length ≤ (r.pending c).length := by
  obtain rfl | ⟨e, hs, he⟩ := h
  · exact le_rfl
  · have hupdate : ∀ {d : ι} {us : List U}, r'.pending = Function.update r.pending d us →
        us.length ≤ (r.pending d).length → (r'.pending c).length ≤ (r.pending c).length := by
      intro d us hpend hle
      rw [hpend]
      by_cases hc : c = d
      · subst hc
        rwa [Function.update_self]
      · rw [Function.update_of_ne hc]
    cases e with
    | issue d u => exact absurd rfl (he d u)
    | arrive d =>
        obtain ⟨u, us, hp, -, hpend, -⟩ := arrive_eq_some hs
        exact hupdate hpend (by simp [hp])
    | reject d =>
        obtain ⟨u, us, hp, -, hpend, -⟩ := reject_eq_some hs
        exact hupdate hpend (by simp [hp])
    | sync d n =>
        obtain ⟨-, -, -, hpend, -⟩ := sync_eq_some hs
        rw [hpend]
    | crash d =>
        obtain rfl := Option.some.inj hs
        exact hupdate rfl (Nat.zero_le _)

/-- When all queues are empty, the log stays as it is. -/
theorem Rests.log_eq (h : Rests r r') (hempty : ∀ c, r.pending c = []) : r'.log = r.log := by
  obtain rfl | ⟨e, hs, he⟩ := h
  · rfl
  · cases e with
    | issue d u => exact absurd rfl (he d u)
    | arrive d =>
        obtain ⟨u, us, hp, -, -, -⟩ := arrive_eq_some hs
        exact absurd (hp.symm.trans (hempty d)) (List.cons_ne_nil u us)
    | reject d =>
        obtain ⟨u, us, hp, -, -, -⟩ := reject_eq_some hs
        exact absurd (hp.symm.trans (hempty d)) (List.cons_ne_nil u us)
    | sync d n => exact (sync_eq_some hs).2.2.1
    | crash d => exact (congrArg log (Option.some.inj hs)).symm

/-- No client is told of less than before. -/
theorem Rests.seen_le (h : Rests r r') (c : ι) : r.seen c ≤ r'.seen c := by
  obtain rfl | ⟨e, hs, he⟩ := h
  · exact le_rfl
  · cases e with
    | issue d u => exact absurd rfl (he d u)
    | arrive d =>
        obtain ⟨u, us, -, -, -, hseen⟩ := arrive_eq_some hs
        rw [hseen]
    | reject d =>
        obtain ⟨u, us, -, -, -, hseen⟩ := reject_eq_some hs
        rw [hseen]
    | sync d n =>
        obtain ⟨hle, -, -, -, hseen⟩ := sync_eq_some hs
        rw [hseen]
        by_cases hc : c = d
        · subst hc
          rwa [Function.update_self]
        · rw [Function.update_of_ne hc]
    | crash d =>
        obtain rfl := Option.some.inj hs
        by_cases hc : c = d
        · subst hc
          simpa [crash] using r.seen_le c
        · simp [crash, hc]

/-! ### Settling -/

/-- **A log settles** when nothing more is issued, each queue is empty or its oldest update
arrives again and again, and so is each client up to date or told of the whole log. -/
theorem eventually_settled [Finite ι] {rs : ℕ → Replica ι U}
    (hrests : ∀ᶠ n in atTop, Rests (rs n) (rs (n + 1)))
    (harrive : ∀ c, ∃ᶠ n in atTop,
      (rs n).pending c = [] ∨ (rs n).arrive c = some (rs (n + 1)))
    (hsync : ∀ c, ∃ᶠ n in atTop, (rs n).seen c = (rs n).log.length ∨
      (rs n).sync c (rs n).log.length = some (rs (n + 1))) :
    ∃ log, ∀ᶠ n in atTop, (rs n).Settled ∧ (rs n).log = log := by
  have hempty : ∀ᶠ n in atTop, ∀ c, (rs n).pending c = [] := by
    refine eventually_all.mpr fun c => ?_
    have hzero : ∀ᶠ n in atTop, ((rs n).pending c).length = 0 := by
      refine Machine.eventually_eq_zero (hrests.mono fun n hn => hn.pending_length_le c) ?_
      refine (harrive c).mono fun n hn => hn.imp (fun hp => by rw [hp]; rfl) fun harr => ?_
      obtain ⟨u, us, hp, -, hpend, -⟩ := arrive_eq_some harr
      simp [hp, hpend]
    exact hzero.mono fun n hn => List.length_eq_zero_iff.mp hn
  have hlog : ∀ᶠ n in atTop, (rs (n + 1)).log = (rs n).log :=
    (hrests.and hempty).mono fun n hn => hn.1.log_eq hn.2
  have htold : ∀ c, ∀ᶠ n in atTop, (rs n).log.length - (rs n).seen c = 0 := by
    intro c
    refine Machine.eventually_eq_zero ?_ ?_
    · refine (hrests.and hlog).mono ?_
      rintro n ⟨hn, hsame⟩
      rw [hsame]
      exact Nat.sub_le_sub_left (hn.seen_le c) _
    · refine (hsync c).mono fun n hn => or_iff_not_imp_left.mpr fun hbehind => ?_
      rcases hn with hseen | htell
      · exact absurd (hseen ▸ Nat.sub_self _) hbehind
      · obtain ⟨-, -, hlog, -, hseen⟩ := sync_eq_some htell
        rw [hlog, hseen, Function.update_self, Nat.sub_self]
        exact Nat.pos_of_ne_zero hbehind
  obtain ⟨log, hconst⟩ := Machine.eventually_const (f := fun n => (rs n).log) hlog
  refine ⟨log, ((hempty.and (eventually_all.mpr htold)).and hconst).mono ?_⟩
  rintro n ⟨⟨hp, hseen⟩, hlog⟩
  exact ⟨fun c => ⟨hp c, le_antisymm ((rs n).seen_le c) (Nat.le_of_sub_eq_zero (hseen c))⟩, hlog⟩

end Replica
