import Mathlib.Data.Fintype.Basic
import Mathlib.Data.List.Nodup
import Mathlib.Logic.Function.Basic
import MDBSocials.Lib.Machine

/-!
# Optimistic Replication of a Log

Clients issue updates. Each client's updates reach the server in the order in which they
were issued, and the server's `log` is the sequence of all updates in order of arrival.
A client is told of ever longer prefixes of the log (`seen`), and it sees its own
updates at once: its `viewSeq` is the prefix it has been told of, followed by its own
updates that this prefix does not hold yet.

A client can lose its queue of updates (`crash`), and the server can refuse the oldest
update of a queue (`reject`).

## Main results

* `viewSeq_arrive`: an arrival changes the view of no client.
* `Causal.step` and `ViewCausal.step`: when every update is issued with its dependencies
  in front of it, they stay in front of it, at the server and in every view, whatever the
  interleaving.
* `Distinct.step`: when every update is issued with a fresh identifier, the identifiers
  in the log and in all queues stay pairwise distinct.
* `Settled.viewSeq` and `exists_settled`: clients that have been told of everything agree,
  and the network can always bring that about.
* `viewSeq_subset_of_run` and `mem_viewSeq_of_issue`: what a client has seen or issued it
  goes on seeing.
* `log_append_pending` and `log_perm_issues`: updates arrive in the order in which their
  client issued them, exactly once.
-/

/-- The state of a replicated log with clients in `ι` and updates in `U`. -/
@[ext] structure Replica (ι U : Type*) where
  /-- The updates that have reached the server, in order of arrival, with their issuer. -/
  log : List (ι × U)
  /-- The updates a client has issued that have not reached the server. -/
  pending : ι → List U
  /-- How much of the log a client has been told of. -/
  seen : ι → ℕ
  seen_le : ∀ c, seen c ≤ log.length

namespace Replica

variable {ι U : Type*}

/-- Nothing written, nothing seen. -/
def empty : Replica ι U where
  log := []
  pending _ := []
  seen _ := 0
  seen_le _ := Nat.le_refl 0

/-- The updates at the server. -/
def serverSeq (r : Replica ι U) : List U := r.log.map Prod.snd

/-- What happens to a replicated log. -/
inductive Event (ι U : Type*)
  | issue (c : ι) (u : U)
  | arrive (c : ι)
  | reject (c : ι)
  | sync (c : ι) (n : ℕ)
  | crash (c : ι)
  deriving DecidableEq

section Operations

variable [DecidableEq ι]

/-- The updates in the local view of a client, in the order in which they apply. -/
def viewSeq (r : Replica ι U) (c : ι) : List U :=
  (r.log.take (r.seen c)).map Prod.snd ++
    ((r.log.drop (r.seen c)).filter (·.1 = c)).map Prod.snd ++ r.pending c

/-- A client issues an update. -/
def issue (r : Replica ι U) (c : ι) (u : U) : Replica ι U :=
  { r with pending := Function.update r.pending c (r.pending c ++ [u]) }

/-- The oldest update in a client's queue reaches the server. -/
def arrive (r : Replica ι U) (c : ι) : Option (Replica ι U) :=
  match r.pending c with
  | [] => none
  | u :: us => some
      { log := r.log ++ [(c, u)]
        pending := Function.update r.pending c us
        seen := r.seen
        seen_le := fun d => by simpa using Nat.le_succ_of_le (r.seen_le d) }

/-- The server refuses the oldest update in a client's queue. -/
def reject (r : Replica ι U) (c : ι) : Option (Replica ι U) :=
  match r.pending c with
  | [] => none
  | _ :: us => some { r with pending := Function.update r.pending c us }

/-- A client is told of the first `n` updates of the log, at least as many as before. -/
def sync (r : Replica ι U) (c : ι) (n : ℕ) : Option (Replica ι U) :=
  if h : r.seen c ≤ n ∧ n ≤ r.log.length then some
    { r with
      seen := Function.update r.seen c n
      seen_le := fun d => by
        by_cases hd : d = c
        · simpa [hd] using h.2
        · simpa [hd] using r.seen_le d }
  else none

/-- A client loses its queue; what it reads next is what the server has now. -/
def crash (r : Replica ι U) (c : ι) : Replica ι U where
  log := r.log
  pending := Function.update r.pending c []
  seen := Function.update r.seen c r.log.length
  seen_le d := by
    by_cases hd : d = c
    · simp [hd]
    · simpa [hd] using r.seen_le d

/-- The state after an event. -/
def step (r : Replica ι U) : Event ι U → Option (Replica ι U)
  | .issue c u => some (r.issue c u)
  | .arrive c => r.arrive c
  | .reject c => r.reject c
  | .sync c n => r.sync c n
  | .crash c => some (r.crash c)

/-- The runs of a replicated log. -/
def machine : Machine (Replica ι U) (Event ι U) where
  step := step

/-! ### What the operations change -/

theorem arrive_eq_some {r r' : Replica ι U} {c : ι} (h : r.arrive c = some r') :
    ∃ u us, r.pending c = u :: us ∧ r'.log = r.log ++ [(c, u)] ∧
      r'.pending = Function.update r.pending c us ∧ r'.seen = r.seen := by
  rw [arrive] at h
  split at h
  · cases h
  · rename_i u us hp
    obtain rfl := Option.some.inj h
    exact ⟨u, us, hp, rfl, rfl, rfl⟩

theorem reject_eq_some {r r' : Replica ι U} {c : ι} (h : r.reject c = some r') :
    ∃ u us, r.pending c = u :: us ∧ r'.log = r.log ∧
      r'.pending = Function.update r.pending c us ∧ r'.seen = r.seen := by
  rw [reject] at h
  split at h
  · cases h
  · rename_i u us hp
    obtain rfl := Option.some.inj h
    exact ⟨u, us, hp, rfl, rfl, rfl⟩

theorem sync_eq_some {r r' : Replica ι U} {c : ι} {n : ℕ} (h : r.sync c n = some r') :
    r.seen c ≤ n ∧ n ≤ r.log.length ∧ r'.log = r.log ∧ r'.pending = r.pending ∧
      r'.seen = Function.update r.seen c n := by
  rw [sync] at h
  split at h
  · rename_i hn
    obtain rfl := Option.some.inj h
    exact ⟨hn.1, hn.2, rfl, rfl, rfl⟩
  · cases h

/-- An update is in its issuer's view from the moment it is issued. -/
theorem viewSeq_issue_self (r : Replica ι U) (c : ι) (u : U) :
    (r.issue c u).viewSeq c = r.viewSeq c ++ [u] := by
  simp [viewSeq, issue]

theorem viewSeq_issue_of_ne (r : Replica ι U) {c d : ι} (u : U) (hd : d ≠ c) :
    (r.issue c u).viewSeq d = r.viewSeq d := by
  simp [viewSeq, issue, hd]

/-- **An arrival changes no view**: the issuer had the update in its view already, the
others have not been told of it. -/
theorem viewSeq_arrive {r r' : Replica ι U} {c : ι} (h : r.arrive c = some r') (d : ι) :
    r'.viewSeq d = r.viewSeq d := by
  obtain ⟨u, us, hp, hlog, hpend, hseen⟩ := arrive_eq_some h
  have hle := r.seen_le d
  have hdrop : r.seen d - r.log.length = 0 := by omega
  by_cases hd : d = c
  · subst hd
    simp [viewSeq, hlog, hpend, hseen, hp, List.take_append, List.drop_append, hdrop]
  · simp [viewSeq, hlog, hpend, hseen, List.take_append, List.drop_append, hdrop, hd,
      Ne.symm hd]

theorem viewSeq_reject_of_ne {r r' : Replica ι U} {c d : ι} (h : r.reject c = some r')
    (hd : d ≠ c) : r'.viewSeq d = r.viewSeq d := by
  obtain ⟨u, us, -, hlog, hpend, hseen⟩ := reject_eq_some h
  simp [viewSeq, hlog, hpend, hseen, hd]

/-- A refusal takes updates out of a view only. -/
theorem viewSeq_reject_subset {r r' : Replica ι U} {c : ι} (h : r.reject c = some r') :
    r'.viewSeq c ⊆ r.viewSeq c := by
  obtain ⟨u, us, hp, hlog, hpend, hseen⟩ := reject_eq_some h
  rw [viewSeq, viewSeq, hlog, hpend, hseen, hp, Function.update_self]
  exact (List.Sublist.append (List.Sublist.refl _) (List.sublist_cons_self u us)).subset

theorem viewSeq_sync_of_ne {r r' : Replica ι U} {c d : ι} {n : ℕ}
    (h : r.sync c n = some r') (hd : d ≠ c) : r'.viewSeq d = r.viewSeq d := by
  obtain ⟨-, -, hlog, hpend, hseen⟩ := sync_eq_some h
  simp [viewSeq, hlog, hpend, hseen, hd]

theorem viewSeq_crash_of_ne (r : Replica ι U) {c d : ι} (hd : d ≠ c) :
    (r.crash c).viewSeq d = r.viewSeq d := by
  simp [viewSeq, crash, hd]

/-- After a crash the client reads what the server has. -/
theorem viewSeq_crash_self (r : Replica ι U) (c : ι) :
    (r.crash c).viewSeq c = r.serverSeq := by
  simp [viewSeq, crash, serverSeq]

/-- How a view changes when its client is told of more of the log: the segment it is
told of replaces the client's own updates in it. -/
theorem viewSeq_sync_self {r r' : Replica ι U} {c : ι} {n : ℕ} (h : r.sync c n = some r') :
    ∃ told rest : List U,
      r'.viewSeq c = (r.log.take n).map Prod.snd ++ rest ∧
      r.viewSeq c = (r.log.take (r.seen c)).map Prod.snd ++ told ++ rest ∧
      told ⊆ (r.log.take n).map Prod.snd := by
  obtain ⟨hle, -, hlog, hpend, hseen⟩ := sync_eq_some h
  obtain ⟨m, rfl⟩ := Nat.exists_eq_add_of_le hle
  refine ⟨(((r.log.drop (r.seen c)).take m).filter (·.1 = c)).map Prod.snd,
    ((r.log.drop (r.seen c + m)).filter (·.1 = c)).map Prod.snd ++ r.pending c, ?_, ?_, ?_⟩
  · simp [viewSeq, hlog, hpend, hseen]
  · have hsplit : r.log.drop (r.seen c) =
        (r.log.drop (r.seen c)).take m ++ r.log.drop (r.seen c + m) := by
      rw [← List.drop_drop, List.take_append_drop]
    rw [viewSeq]
    conv_lhs => rw [hsplit]
    rw [List.filter_append, List.map_append]
    simp only [List.append_assoc]
  · refine List.map_subset _ ?_
    rw [List.take_add]
    exact List.Subset.trans List.filter_sublist.subset (List.subset_append_right _ _)

/-- A view only grows when its client is told of more of the log. -/
theorem viewSeq_subset_sync {r r' : Replica ι U} {c : ι} {n : ℕ}
    (h : r.sync c n = some r') : r.viewSeq c ⊆ r'.viewSeq c := by
  obtain ⟨told, rest, hnew, hold, htold⟩ := viewSeq_sync_self h
  have hle := (sync_eq_some h).1
  rw [hnew, hold]
  refine List.append_subset.mpr ⟨List.append_subset.mpr ⟨?_, ?_⟩, ?_⟩
  · have hpre : r.log.take (r.seen c) ⊆ r.log.take n :=
      (List.take_prefix_take_left hle).subset
    exact List.subset_append_of_subset_left _ (List.map_subset _ hpre)
  · exact List.subset_append_of_subset_left _ htold
  · exact List.subset_append_right _ _

/-- A view consists of updates at the server and updates in its client's queue. -/
theorem viewSeq_sublist (r : Replica ι U) (c : ι) :
    (r.viewSeq c).Sublist (r.serverSeq ++ r.pending c) := by
  refine List.Sublist.append ?_ (List.Sublist.refl _)
  rw [serverSeq, ← List.map_append]
  refine List.Sublist.map _ ?_
  conv_rhs => rw [← List.take_append_drop (r.seen c) r.log]
  exact List.Sublist.append (List.Sublist.refl _) List.filter_sublist

end Operations

/-! ### What has been issued -/

/-- An update is at the server or in a queue. -/
def Issued (r : Replica ι U) (u : U) : Prop := u ∈ r.serverSeq ∨ ∃ c, u ∈ r.pending c

section Issued

variable [DecidableEq ι]

omit [DecidableEq ι] in
theorem issued_of_mem_append {r : Replica ι U} {c : ι} {u : U}
    (h : u ∈ r.serverSeq ++ r.pending c) : r.Issued u :=
  (List.mem_append.mp h).imp_right fun h => ⟨c, h⟩

theorem issued_of_mem_viewSeq {r : Replica ι U} {c : ι} {u : U} (h : u ∈ r.viewSeq c) :
    r.Issued u :=
  issued_of_mem_append ((r.viewSeq_sublist c).subset h)

theorem issued_issue (r : Replica ι U) (c : ι) (u : U) : (r.issue c u).Issued u :=
  Or.inr ⟨c, by simp [issue]⟩

/-- Only an issue brings an update in. -/
theorem Issued.of_step {r r' : Replica ι U} {e : Event ι U} {u : U}
    (hs : r.step e = some r') (h : r'.Issued u) : r.Issued u ∨ ∃ c, e = .issue c u := by
  have of_queues : r'.serverSeq = r.serverSeq →
      (∀ d, r'.pending d ⊆ r.pending d) → r.Issued u := by
    intro hserver hpend
    rcases h with h | ⟨d, h⟩
    · exact Or.inl (hserver ▸ h)
    · exact Or.inr ⟨d, hpend d h⟩
  cases e with
  | issue c v =>
      obtain rfl := Option.some.inj hs
      rcases h with h | ⟨d, h⟩
      · exact Or.inl (Or.inl h)
      · by_cases hd : d = c
        · subst hd
          simp only [issue, Function.update_self] at h
          rcases List.mem_append.mp h with h | h
          · exact Or.inl (Or.inr ⟨d, h⟩)
          · exact Or.inr ⟨d, by rw [List.mem_singleton.mp h]⟩
        · simp only [issue, Function.update_of_ne hd] at h
          exact Or.inl (Or.inr ⟨d, h⟩)
  | arrive c =>
      obtain ⟨v, us, hp, hlog, hpend, -⟩ := arrive_eq_some hs
      refine Or.inl ?_
      have hc : ∀ x ∈ v :: us, r.Issued x := fun x hx => Or.inr ⟨c, hp ▸ hx⟩
      rcases h with h | ⟨d, h⟩
      · rw [serverSeq, hlog, List.map_append] at h
        rcases List.mem_append.mp h with h | h
        · exact Or.inl h
        · exact hc u (List.mem_singleton.mp h ▸ List.mem_cons_self)
      · by_cases hd : d = c
        · subst hd
          rw [hpend, Function.update_self] at h
          exact hc u (List.mem_cons_of_mem _ h)
        · rw [hpend, Function.update_of_ne hd] at h
          exact Or.inr ⟨d, h⟩
  | reject c =>
      obtain ⟨v, us, hp, hlog, hpend, -⟩ := reject_eq_some hs
      refine Or.inl (of_queues (by rw [serverSeq, hlog]; rfl) fun d => ?_)
      rw [hpend]
      by_cases hd : d = c
      · subst hd
        simp [hp]
      · simp [hd]
  | sync c n =>
      obtain ⟨-, -, hlog, hpend, -⟩ := sync_eq_some hs
      exact Or.inl (of_queues (by rw [serverSeq, hlog]; rfl) fun d => by rw [hpend]; simp)
  | crash c =>
      obtain rfl := Option.some.inj hs
      refine Or.inl (of_queues rfl fun d => ?_)
      by_cases hd : d = c
      · simp [crash, hd]
      · simp [crash, hd]

end Issued

/-! ### Causality -/

section Causality

/-- Every update of the list has its dependencies among `pre` and the updates of the
list before it. -/
def CausalFrom (dep : U → List U → Prop) : List U → List U → Prop
  | _, [] => True
  | pre, u :: us => dep u pre ∧ CausalFrom dep (pre ++ [u]) us

variable {dep : U → List U → Prop}

/-- Dependencies are monotone when more updates in front never take one away. -/
def MonotoneDep (dep : U → List U → Prop) : Prop :=
  ∀ u l l', l ⊆ l' → dep u l → dep u l'

theorem causalFrom_append {pre us vs : List U} :
    CausalFrom dep pre (us ++ vs) ↔
      CausalFrom dep pre us ∧ CausalFrom dep (pre ++ us) vs := by
  induction us generalizing pre with
  | nil => simp [CausalFrom]
  | cons u us ih => simp [CausalFrom, ih, and_assoc]

/-- The last update of a causal list has its dependencies in front of it. -/
theorem causalFrom_snoc {pre us : List U} {u : U} :
    CausalFrom dep pre (us ++ [u]) ↔ CausalFrom dep pre us ∧ dep u (pre ++ us) := by
  simp [causalFrom_append, CausalFrom]

theorem CausalFrom.of_subset (hmono : MonotoneDep dep) {pre pre' us : List U}
    (hpre : pre ⊆ pre') (h : CausalFrom dep pre us) : CausalFrom dep pre' us := by
  induction us generalizing pre pre' with
  | nil => trivial
  | cons u us ih =>
      have hcons : pre ++ [u] ⊆ pre' ++ [u] :=
        List.append_subset.mpr ⟨List.subset_append_of_subset_left _ hpre,
          List.subset_append_right _ _⟩
      exact ⟨hmono u pre pre' hpre h.1, ih hcons h.2⟩

/-- Every update of a causal list has its dependencies in the list. -/
theorem CausalFrom.dep_of_mem (hmono : MonotoneDep dep) {us : List U}
    (h : CausalFrom dep [] us) {u : U} (hu : u ∈ us) : dep u us := by
  obtain ⟨pre, suf, rfl⟩ := List.append_of_mem hu
  have hdep : dep u ([] ++ pre) := (causalFrom_append.mp h).2.1
  exact hmono u _ _ (by simp) hdep

/-- Replacing the front of a causal list by a causal list with more updates keeps it
causal. -/
theorem CausalFrom.replace_front (hmono : MonotoneDep dep) {front front' rest : List U}
    (h : CausalFrom dep [] (front ++ rest)) (h' : CausalFrom dep [] front')
    (hsub : front ⊆ front') : CausalFrom dep [] (front' ++ rest) :=
  causalFrom_append.mpr ⟨h', ((causalFrom_append.mp h).2).of_subset hmono (by simpa)⟩

/-- The server's log is causal, and so is every queue behind it. -/
structure Causal (dep : U → List U → Prop) (r : Replica ι U) : Prop where
  server : CausalFrom dep [] r.serverSeq
  queue : ∀ c, CausalFrom dep r.serverSeq (r.pending c)

theorem causal_empty : Causal dep (empty : Replica ι U) :=
  ⟨trivial, fun _ => trivial⟩

/-- A queue continues the log. -/
theorem Causal.append {r : Replica ι U} (h : Causal dep r) (c : ι) :
    CausalFrom dep [] (r.serverSeq ++ r.pending c) :=
  causalFrom_append.mpr ⟨h.server, h.queue c⟩

variable [DecidableEq ι]

/-- Every local view is causal. -/
def ViewCausal (dep : U → List U → Prop) (r : Replica ι U) : Prop :=
  ∀ c, CausalFrom dep [] (r.viewSeq c)

theorem viewCausal_empty : ViewCausal dep (empty : Replica ι U) :=
  fun _ => trivial

/-- What an event may do for causality to survive: an update is issued when its
dependencies are at the server or in its issuer's queue, and nothing is refused. -/
def IssuesAfter (dep : U → List U → Prop) (r : Replica ι U) : Event ι U → Prop
  | .issue c u => dep u (r.serverSeq ++ r.pending c)
  | .reject _ => False
  | _ => True

/-- **Causality of the log**: it survives arrivals in every order, and crashes. -/
theorem Causal.step (hmono : MonotoneDep dep) {r r' : Replica ι U} {e : Event ι U}
    (h : Causal dep r) (he : IssuesAfter dep r e) (hs : r.step e = some r') :
    Causal dep r' := by
  cases e with
  | issue c u =>
      obtain rfl := Option.some.inj hs
      refine ⟨h.server, fun d => ?_⟩
      by_cases hd : d = c
      · subst hd
        simpa [issue, serverSeq] using causalFrom_snoc.mpr ⟨h.queue d, he⟩
      · simpa [issue, serverSeq, hd] using h.queue d
  | arrive c =>
      obtain ⟨u, us, hp, hlog, hpend, -⟩ := arrive_eq_some hs
      have hserver : r'.serverSeq = r.serverSeq ++ [u] := by simp [serverSeq, hlog]
      have hq := h.queue c
      rw [hp] at hq
      refine ⟨?_, fun d => ?_⟩
      · rw [hserver]
        exact causalFrom_snoc.mpr ⟨h.server, hq.1⟩
      · rw [hserver, hpend]
        by_cases hd : d = c
        · subst hd
          simpa using hq.2
        · simpa [hd] using (h.queue d).of_subset hmono (List.subset_append_left _ _)
  | reject c => exact he.elim
  | sync c n =>
      obtain ⟨-, -, hlog, hpend, -⟩ := sync_eq_some hs
      have hserver : r'.serverSeq = r.serverSeq := by simp [serverSeq, hlog]
      exact ⟨hserver ▸ h.server, fun d => by rw [hserver, hpend]; exact h.queue d⟩
  | crash c =>
      obtain rfl := Option.some.inj hs
      refine ⟨h.server, fun d => ?_⟩
      by_cases hd : d = c
      · simp [crash, hd, CausalFrom]
      · simpa [crash, serverSeq, hd] using h.queue d

/-- As `IssuesAfter`, with the dependencies in the issuer's own view. -/
def IssuesInView (dep : U → List U → Prop) (r : Replica ι U) : Event ι U → Prop
  | .issue c u => dep u (r.viewSeq c)
  | .reject _ => False
  | _ => True

theorem IssuesInView.issuesAfter (hmono : MonotoneDep dep) {r : Replica ι U}
    {e : Event ι U} (h : IssuesInView dep r e) : IssuesAfter dep r e := by
  cases e with
  | issue c u => exact hmono _ _ _ (r.viewSeq_sublist c).subset h
  | reject c => exact h
  | _ => trivial

/-- **Causality of the views**: an update issued with its dependencies in its issuer's
view has them in front of it in every view that ever holds it. -/
theorem ViewCausal.step (hmono : MonotoneDep dep) {r r' : Replica ι U} {e : Event ι U}
    (hc : Causal dep r) (h : ViewCausal dep r) (he : IssuesInView dep r e)
    (hs : r.step e = some r') : ViewCausal dep r' := by
  intro d
  cases e with
  | issue c u =>
      obtain rfl := Option.some.inj hs
      by_cases hd : d = c
      · subst hd
        rw [viewSeq_issue_self]
        exact causalFrom_snoc.mpr ⟨h d, he⟩
      · rw [viewSeq_issue_of_ne r u hd]
        exact h d
  | arrive c =>
      rw [viewSeq_arrive hs]
      exact h d
  | reject c => exact he.elim
  | sync c n =>
      by_cases hd : d = c
      · subst hd
        obtain ⟨told, rest, hnew, hold, htold⟩ := viewSeq_sync_self hs
        have hle := (sync_eq_some hs).1
        rw [hnew]
        refine CausalFrom.replace_front hmono (hold ▸ h d) ?_ ?_
        · -- a prefix of the log is causal
          have hlog := hc.server
          rw [serverSeq, ← List.take_append_drop n r.log, List.map_append] at hlog
          exact (causalFrom_append.mp hlog).1
        · refine List.append_subset.mpr ⟨List.map_subset _ ?_, htold⟩
          exact (List.take_prefix_take_left hle).subset
      · rw [viewSeq_sync_of_ne hs hd]
        exact h d
  | crash c =>
      obtain rfl := Option.some.inj hs
      by_cases hd : d = c
      · subst hd
        rw [viewSeq_crash_self]
        exact hc.server
      · rw [viewSeq_crash_of_ne r hd]
        exact h d

end Causality

/-! ### Distinct identifiers -/

/-- In a list with distinct identifiers, an identifier tells its element. -/
theorem eq_of_nodup_filterMap {α β : Type*} {f : α → Option β} {l : List α}
    (h : (l.filterMap f).Nodup) {a a' : α} (ha : a ∈ l) (ha' : a' ∈ l) {b : β}
    (hb : f a = some b) (hb' : f a' = some b) : a = a' := by
  induction l with
  | nil => cases ha
  | cons c l ih =>
      have hrest : (l.filterMap f).Nodup :=
        h.sublist ((List.sublist_cons_self c l).filterMap f)
      have hhead : f c = some b → ∀ x ∈ l, f x ≠ some b := by
        intro hc x hx hxb
        rw [List.filterMap_cons_some hc] at h
        exact (List.nodup_cons.mp h).1 (List.mem_filterMap.mpr ⟨x, hx, hxb⟩)
      rcases List.mem_cons.mp ha with rfl | hin <;> rcases List.mem_cons.mp ha' with rfl | hin'
      · rfl
      · exact absurd hb' (hhead hb a' hin')
      · exact absurd hb (hhead hb' a hin)
      · exact ih hrest hin hin'

/-- Identifiers read off some of the elements are among those of all. -/
theorem map_filterMap_sublist {α β γ : Type*} {f : α → Option β} {g : β → γ}
    {h : α → Option γ} (hfg : ∀ a b, f a = some b → h a = some (g b)) (l : List α) :
    ((l.filterMap f).map g).Sublist (l.filterMap h) := by
  induction l with
  | nil => exact List.Sublist.refl _
  | cons a l ih =>
      cases hf : f a with
      | some b =>
          rw [List.filterMap_cons_some hf, List.filterMap_cons_some (hfg a b hf)]
          exact ih.cons_cons _
      | none =>
          rw [List.filterMap_cons_none hf]
          cases hh : h a with
          | some b =>
              rw [List.filterMap_cons_some hh]
              exact ih.cons _
          | none => rwa [List.filterMap_cons_none hh]

section Distinct

variable {κ : Type*} (ident : U → Option κ)

/-- The identifiers of the updates in the log and in all queues are pairwise distinct.
An update with `ident u = none` has no identifier. -/
structure Distinct (r : Replica ι U) : Prop where
  queue : ∀ c, ((r.serverSeq ++ r.pending c).filterMap ident).Nodup
  queues : ∀ c d, c ≠ d →
    ((r.pending c).filterMap ident).Disjoint ((r.pending d).filterMap ident)

/-- No update in the log or in a queue has this identifier. -/
def Unused (r : Replica ι U) (k : κ) : Prop :=
  k ∉ r.serverSeq.filterMap ident ∧ ∀ c, k ∉ (r.pending c).filterMap ident

/-- Updates are issued with an unused identifier, if with one at all. -/
def IssuesFresh (r : Replica ι U) : Event ι U → Prop
  | .issue _ u => ∀ k, ident u = some k → Unused ident r k
  | _ => True

variable {ident}

theorem distinct_empty : Distinct ident (empty : Replica ι U) :=
  ⟨fun _ => List.nodup_nil, fun _ _ _ => List.disjoint_nil_left _⟩

/-- Dropping part of a queue keeps identifiers distinct. -/
theorem Distinct.of_sublist {r r' : Replica ι U} (h : Distinct ident r)
    (hserver : r'.serverSeq = r.serverSeq)
    (hpend : ∀ c, (r'.pending c).Sublist (r.pending c)) : Distinct ident r' := by
  refine ⟨fun c => ?_, fun c d hcd => ?_⟩
  · rw [hserver]
    exact (h.queue c).sublist (((List.Sublist.refl _).append (hpend c)).filterMap _)
  · intro k hk hk'
    exact h.queues c d hcd (((hpend c).filterMap _).subset hk)
      (((hpend d).filterMap _).subset hk')

/-- The identifiers at the server are distinct. -/
theorem Distinct.nodup_serverSeq {r : Replica ι U} (h : Distinct ident r) :
    (r.serverSeq.filterMap ident).Nodup := by
  cases hlog : r.log with
  | nil => simp [serverSeq, hlog]
  | cons x log =>
      exact (h.queue x.1).sublist ((List.sublist_append_left _ _).filterMap _)

variable [DecidableEq ι]

/-- **Identifiers stay distinct** along every interleaving of fresh updates. -/
theorem Distinct.step {r r' : Replica ι U} {e : Event ι U} (h : Distinct ident r)
    (he : IssuesFresh ident r e) (hs : r.step e = some r') : Distinct ident r' := by
  cases e with
  | issue c u =>
      obtain rfl := Option.some.inj hs
      have hu : ∀ k ∈ [u].filterMap ident, Unused ident r k := by
        intro k hk
        refine he k ?_
        simpa using hk
      have hone : ([u].filterMap ident).Nodup := by
        cases hk : ident u <;> simp [hk]
      refine ⟨fun d => ?_, fun d d' hdd' => ?_⟩
      · by_cases hd : d = c
        · subst hd
          simp only [issue, Function.update_self]
          change ((r.serverSeq ++ (r.pending d ++ [u])).filterMap ident).Nodup
          rw [← List.append_assoc, List.filterMap_append]
          refine List.nodup_append'.mpr ⟨h.queue d, hone, fun k hk hk' => ?_⟩
          rcases List.mem_append.mp (List.filterMap_append ▸ hk) with hk | hk
          · exact (hu k hk').1 hk
          · exact (hu k hk').2 d hk
        · simpa [issue, serverSeq, hd] using h.queue d
      · intro k hk hk'
        have hsplit : ∀ b, k ∈ ((r.issue c u).pending b).filterMap ident →
            k ∈ (r.pending b).filterMap ident ∨ b = c ∧ k ∈ [u].filterMap ident := by
          intro b hb
          by_cases hbc : b = c
          · subst hbc
            simp only [issue, Function.update_self, List.filterMap_append,
              List.mem_append] at hb
            exact hb.imp_right fun hb => ⟨rfl, hb⟩
          · simp only [issue, Function.update_of_ne hbc] at hb
            exact Or.inl hb
        rcases hsplit d hk with hk | ⟨hd, hk⟩ <;> rcases hsplit d' hk' with hk' | ⟨hd', hk'⟩
        · exact h.queues d d' hdd' hk hk'
        · exact (hu k hk').2 d hk
        · exact (hu k hk).2 d' hk'
        · exact hdd' (hd.trans hd'.symm)
  | arrive c =>
      obtain ⟨u, us, hp, hlog, hpend, -⟩ := arrive_eq_some hs
      have hserver : r'.serverSeq = r.serverSeq ++ [u] := by simp [serverSeq, hlog]
      have hq := h.queue c
      rw [hp] at hq
      refine ⟨fun d => ?_, fun d d' hdd' => ?_⟩
      · rw [hserver, hpend]
        by_cases hd : d = c
        · subst hd
          simpa using hq
        · rw [Function.update_of_ne hd, List.filterMap_append]
          have hold := h.queue d
          rw [List.filterMap_append] at hold
          obtain ⟨hs₁, hs₂, hs₃⟩ := List.nodup_append'.mp hold
          have hu : ((r.serverSeq ++ [u]).filterMap ident).Nodup :=
            hq.sublist (List.Sublist.filterMap _ (by simp))
          refine List.nodup_append'.mpr ⟨hu, hs₂, fun k hk hk' => ?_⟩
          rcases List.mem_append.mp (List.filterMap_append ▸ hk) with hk | hk
          · exact hs₃ hk hk'
          · refine h.queues c d (Ne.symm hd) ?_ hk'
            rw [hp]
            exact (List.Sublist.filterMap _ (by simp)).subset hk
      · intro k hk hk'
        have hsub : ∀ b, (r'.pending b).Sublist (r.pending b) := by
          intro b
          rw [hpend]
          by_cases hb : b = c
          · subst hb
            simp [hp]
          · simp [hb]
        exact h.queues d d' hdd' (((hsub d).filterMap _).subset hk)
          (((hsub d').filterMap _).subset hk')
  | reject c =>
      obtain ⟨u, us, hp, hlog, hpend, -⟩ := reject_eq_some hs
      refine h.of_sublist (by simp [serverSeq, hlog]) fun d => ?_
      rw [hpend]
      by_cases hd : d = c
      · subst hd
        simp [hp]
      · simp [hd]
  | sync c n =>
      obtain ⟨-, -, hlog, hpend, -⟩ := sync_eq_some hs
      exact h.of_sublist (by simp [serverSeq, hlog]) fun d => by rw [hpend]
  | crash c =>
      obtain rfl := Option.some.inj hs
      refine h.of_sublist rfl fun d => ?_
      by_cases hd : d = c
      · simp [crash, hd]
      · simp [crash, hd]

end Distinct

/-! ### Agreement -/

/-- Everything has arrived, and every client has been told of the whole log. -/
def Settled (r : Replica ι U) : Prop := ∀ c, r.pending c = [] ∧ r.seen c = r.log.length

/-- The events by which the network does its work: updates arrive, and clients are told of
them. -/
def Event.Delivers : Event ι U → Prop
  | .arrive _ | .sync .. => True
  | _ => False

section Agreement

variable [DecidableEq ι] {r r' : Replica ι U} {e : Event ι U}

/-- **Agreement**: in a settled state every client sees what the server has. -/
theorem Settled.viewSeq (h : r.Settled) (c : ι) : r.viewSeq c = r.serverSeq := by
  simp [Replica.viewSeq, serverSeq, (h c).1, (h c).2]

/-- The log only grows. -/
theorem log_prefix_of_step (h : r.step e = some r') : r.log <+: r'.log := by
  cases e with
  | issue c u => exact Option.some.inj h ▸ List.prefix_refl _
  | arrive c =>
      obtain ⟨u, us, -, hlog, -, -⟩ := arrive_eq_some h
      exact ⟨[(c, u)], hlog.symm⟩
  | reject c =>
      obtain ⟨u, us, -, hlog, -, -⟩ := reject_eq_some h
      rw [hlog]
  | sync c n =>
      obtain ⟨-, -, hlog, -, -⟩ := sync_eq_some h
      rw [hlog]
  | crash c => exact Option.some.inj h ▸ List.prefix_refl _

/-- The network loses nothing. -/
theorem Issued.of_delivers {u : U} (h : r.Issued u) (he : e.Delivers)
    (hs : r.step e = some r') : r'.Issued u := by
  cases e with
  | arrive c =>
      obtain ⟨v, us, hp, hlog, hpend, -⟩ := arrive_eq_some hs
      have hserver : r'.serverSeq = r.serverSeq ++ [v] := by simp [serverSeq, hlog]
      rcases h with h | ⟨d, h⟩
      · exact Or.inl (hserver ▸ List.mem_append_left _ h)
      · by_cases hd : d = c
        · subst hd
          rw [hp] at h
          rcases List.mem_cons.mp h with rfl | h
          · exact Or.inl (hserver ▸ List.mem_append_right _ (List.mem_singleton_self u))
          · exact Or.inr ⟨d, by simpa [hpend] using h⟩
        · exact Or.inr ⟨d, by simpa [hpend, hd] using h⟩
  | sync c n =>
      obtain ⟨-, -, hlog, hpend, -⟩ := sync_eq_some hs
      rcases h with h | ⟨d, h⟩
      · exact Or.inl (by rwa [serverSeq, hlog])
      · exact Or.inr ⟨d, by rwa [hpend]⟩
  | _ => exact he.elim

theorem Issued.of_run {u : U} {es : List (Event ι U)} (hes : ∀ e ∈ es, e.Delivers)
    (h : r.Issued u) (hrun : machine.run r es = some r') : r'.Issued u := by
  induction es generalizing r with
  | nil => exact Option.some.inj hrun ▸ h
  | cons e es ih =>
      obtain ⟨r₁, hs, hrun⟩ := Machine.run_cons_eq_some.mp hrun
      exact ih (fun e he => hes e (List.mem_cons_of_mem _ he))
        (h.of_delivers (hes e List.mem_cons_self) hs) hrun

/-- A client whose updates all arrive. -/
theorem exists_arrived (r : Replica ι U) (c : ι) : ∃ es r', (∀ e ∈ es, e.Delivers) ∧
    machine.run r es = some r' ∧ r'.pending = Function.update r.pending c [] := by
  generalize hp : r.pending c = us
  induction us generalizing r with
  | nil => exact ⟨[], r, by simp, rfl, by rw [← hp, Function.update_eq_self]⟩
  | cons u us ih =>
      obtain ⟨r₁, h₁⟩ : ∃ r₁, r.arrive c = some r₁ := by simp [arrive, hp]
      obtain ⟨u', us', hp', -, hpend, -⟩ := arrive_eq_some h₁
      obtain ⟨rfl, rfl⟩ := List.cons.inj (hp.symm.trans hp')
      obtain ⟨es, r', hes, hrun, hpend'⟩ := ih r₁ (by simp [hpend])
      refine ⟨.arrive c :: es, r', ?_, Machine.run_cons_eq_some.mpr ⟨r₁, h₁, hrun⟩, ?_⟩
      · rintro e (_ | ⟨_, he⟩)
        · trivial
        · exact hes e he
      · rw [hpend', hpend, Function.update_idem]

/-- Clients whose updates all arrive. -/
theorem exists_drained (r : Replica ι U) (cs : List ι) : ∃ es r', (∀ e ∈ es, e.Delivers) ∧
    machine.run r es = some r' ∧ ∀ c, c ∈ cs ∨ r.pending c = [] → r'.pending c = [] := by
  induction cs generalizing r with
  | nil => exact ⟨[], r, by simp, rfl, fun c hc => hc.resolve_left List.not_mem_nil⟩
  | cons c cs ih =>
      obtain ⟨es₁, r₁, hes₁, hrun₁, hpend⟩ := exists_arrived r c
      obtain ⟨es₂, r₂, hes₂, hrun₂, hempty⟩ := ih r₁
      refine ⟨es₁ ++ es₂, r₂, ?_, Machine.run_append_eq_some.mpr ⟨r₁, hrun₁, hrun₂⟩, ?_⟩
      · exact fun e he => (List.mem_append.mp he).elim (hes₁ e) (hes₂ e)
      · intro d hd
        refine hempty d ?_
        by_cases hdc : d = c
        · exact Or.inr (by simp [hpend, hdc])
        · rcases hd with hd | hd
          · exact Or.inl ((List.mem_cons.mp hd).resolve_left hdc)
          · exact Or.inr (by simp [hpend, hdc, hd])

/-- Clients that are told of the whole log. -/
theorem exists_told (r : Replica ι U) (cs : List ι) : ∃ es r', (∀ e ∈ es, e.Delivers) ∧
    machine.run r es = some r' ∧ r'.pending = r.pending ∧ r'.log = r.log ∧
    ∀ c, c ∈ cs ∨ r.seen c = r.log.length → r'.seen c = r'.log.length := by
  induction cs generalizing r with
  | nil => exact ⟨[], r, by simp, rfl, rfl, rfl, fun c hc => hc.resolve_left List.not_mem_nil⟩
  | cons c cs ih =>
      obtain ⟨r₁, h₁⟩ : ∃ r₁, r.sync c r.log.length = some r₁ := by simp [sync, r.seen_le c]
      obtain ⟨-, -, hlog, hpend, hseen⟩ := sync_eq_some h₁
      obtain ⟨es, r', hes, hrun, hpend', hlog', htold⟩ := ih r₁
      refine ⟨.sync c r.log.length :: es, r', ?_, Machine.run_cons_eq_some.mpr ⟨r₁, h₁, hrun⟩,
        hpend'.trans hpend, hlog'.trans hlog, fun d hd => htold d ?_⟩
      · rintro e (_ | ⟨_, he⟩)
        · trivial
        · exact hes e he
      · by_cases hdc : d = c
        · exact Or.inr (by simp [hseen, hlog, hdc])
        · rcases hd with hd | hd
          · exact Or.inl ((List.mem_cons.mp hd).resolve_left hdc)
          · exact Or.inr (by simp [hseen, hlog, hdc, hd])

/-- **The network can always settle** the updates of finitely many clients. -/
theorem exists_settled [Fintype ι] (r : Replica ι U) : ∃ es r', (∀ e ∈ es, e.Delivers) ∧
    machine.run r es = some r' ∧ r'.Settled := by
  obtain ⟨es₁, r₁, hes₁, hrun₁, hempty⟩ := exists_drained r Finset.univ.toList
  obtain ⟨es₂, r₂, hes₂, hrun₂, hpend, -, htold⟩ := exists_told r₁ Finset.univ.toList
  refine ⟨es₁ ++ es₂, r₂, ?_, Machine.run_append_eq_some.mpr ⟨r₁, hrun₁, hrun₂⟩, fun c => ?_⟩
  · exact fun e he => (List.mem_append.mp he).elim (hes₁ e) (hes₂ e)
  · have hc : c ∈ Finset.univ.toList := Finset.mem_toList.mpr (Finset.mem_univ c)
    exact ⟨by rw [hpend, hempty c (Or.inl hc)], htold c (Or.inl hc)⟩

end Agreement

/-! ### What a client goes on seeing -/

section Sessions

variable [DecidableEq ι] {r r' : Replica ι U} {c : ι}

/-- Only a crash of its client and a refusal take updates out of a view. -/
theorem viewSeq_subset_of_step {e : Event ι U} (hcrash : e ≠ .crash c) (hreject : e ≠ .reject c)
    (hs : r.step e = some r') : r.viewSeq c ⊆ r'.viewSeq c := by
  have of_eq : r'.viewSeq c = r.viewSeq c → r.viewSeq c ⊆ r'.viewSeq c :=
    fun h => h ▸ List.Subset.refl _
  cases e with
  | issue d u =>
      obtain rfl := Option.some.inj hs
      by_cases hd : c = d
      · subst hd
        rw [viewSeq_issue_self]
        exact List.subset_append_left _ _
      · exact of_eq (viewSeq_issue_of_ne r u hd)
  | arrive d => exact of_eq (viewSeq_arrive hs c)
  | reject d => exact of_eq (viewSeq_reject_of_ne hs fun h => hreject (h ▸ rfl))
  | sync d n =>
      by_cases hd : c = d
      · subst hd
        exact viewSeq_subset_sync hs
      · exact of_eq (viewSeq_sync_of_ne hs hd)
  | crash d =>
      obtain rfl := Option.some.inj hs
      exact of_eq (viewSeq_crash_of_ne r fun h => hcrash (h ▸ rfl))

/-- **Monotonic reads**: what a client has seen it goes on seeing, as long as it does not
crash and is refused nothing. -/
theorem viewSeq_subset_of_run {es : List (Event ι U)}
    (hes : ∀ e ∈ es, e ≠ .crash c ∧ e ≠ .reject c) (hrun : machine.run r es = some r') :
    r.viewSeq c ⊆ r'.viewSeq c := by
  induction es generalizing r with
  | nil => exact Option.some.inj hrun ▸ List.Subset.refl _
  | cons e es ih =>
      obtain ⟨r₁, hs, hrun⟩ := Machine.run_cons_eq_some.mp hrun
      obtain ⟨hcrash, hreject⟩ := hes e List.mem_cons_self
      exact List.Subset.trans (viewSeq_subset_of_step hcrash hreject hs)
        (ih (fun e he => hes e (List.mem_cons_of_mem _ he)) hrun)

/-- **Reads of one's own writes**: a client sees what it has issued. -/
theorem mem_viewSeq_of_issue {es : List (Event ι U)} {u : U}
    (hes : ∀ e ∈ es, e ≠ .crash c ∧ e ≠ .reject c) (hrun : machine.run r es = some r')
    (hu : .issue c u ∈ es) : u ∈ r'.viewSeq c := by
  obtain ⟨es₁, es₂, rfl⟩ := List.append_of_mem hu
  obtain ⟨r₁, -, hrun⟩ := Machine.run_append_eq_some.mp hrun
  obtain ⟨r₂, hs, hrun⟩ := Machine.run_cons_eq_some.mp hrun
  obtain rfl := Option.some.inj hs
  have hgrows := viewSeq_subset_of_run (c := c)
    (fun e he => hes e (List.mem_append_right _ (List.mem_cons_of_mem _ he))) hrun
  refine hgrows ?_
  rw [viewSeq_issue_self]
  exact List.mem_append_right _ (List.mem_singleton_self u)

end Sessions

/-! ### The order of arrival -/

section Order

/-- The updates that are issued in a run, with their issuers. -/
def issues (es : List (Event ι U)) : List (ι × U) :=
  es.filterMap fun
    | .issue c u => some (c, u)
    | _ => none

theorem mem_issues {es : List (Event ι U)} {c : ι} {u : U} :
    (c, u) ∈ issues es ↔ .issue c u ∈ es := by
  rw [issues, List.mem_filterMap]
  constructor
  · rintro ⟨e, he, heq⟩
    cases e with
    | issue d v =>
        obtain ⟨rfl, rfl⟩ := Prod.mk.inj (Option.some.inj heq)
        exact he
    | _ => cases heq
  · exact fun h => ⟨_, h, rfl⟩

variable [DecidableEq ι]

/-- **First in, first out**: what a client has at the server and in its queue is what it has
issued, once each and in order, unless it crashed or was refused something. -/
theorem log_append_pending {es : List (Event ι U)} {r : Replica ι U} {c : ι}
    (hrun : machine.run empty es = some r) (hes : ∀ e ∈ es, e ≠ .crash c ∧ e ≠ .reject c) :
    r.log.filter (·.1 = c) ++ (r.pending c).map (c, ·) = (issues es).filter (·.1 = c) := by
  refine Machine.run_induction (M := machine)
    (motive := fun es r => (∀ e ∈ es, e ≠ .crash c ∧ e ≠ .reject c) →
      r.log.filter (·.1 = c) ++ (r.pending c).map (c, ·) = (issues es).filter (·.1 = c))
    (fun _ => rfl) (fun es r e r' _ ih hs hes => ?_) hrun hes
  have ih := ih fun e he => hes e (List.mem_append_left _ he)
  obtain ⟨hcrash, hreject⟩ := hes e (List.mem_append_right _ (List.mem_singleton_self e))
  have hissues : issues (es ++ [e]) = issues es ++ issues [e] := List.filterMap_append
  rw [hissues, List.filter_append, ← ih]
  cases e with
  | issue d u =>
      obtain rfl := Option.some.inj hs
      by_cases hd : d = c
      · subst hd
        simp [issue, issues]
      · simp [issue, issues, hd, Ne.symm hd]
  | arrive d =>
      obtain ⟨u, us, hp, hlog, hpend, -⟩ := arrive_eq_some hs
      by_cases hd : d = c
      · subst hd
        simp [hlog, hpend, hp, issues]
      · simp [hlog, hpend, issues, hd, Ne.symm hd]
  | reject d =>
      obtain ⟨u, us, -, hlog, hpend, -⟩ := reject_eq_some hs
      have hd : c ≠ d := fun h => hreject (h ▸ rfl)
      simp [hlog, hpend, issues, hd]
  | sync d n =>
      obtain ⟨-, -, hlog, hpend, -⟩ := sync_eq_some hs
      simp [hlog, hpend, issues]
  | crash d =>
      obtain rfl := Option.some.inj hs
      have hd : c ≠ d := fun h => hcrash (h ▸ rfl)
      simp [crash, issues, hd]

/-- **Exactly once**: when all queues are empty, the log holds what was issued. -/
theorem log_perm_issues {es : List (Event ι U)} {r : Replica ι U}
    (hrun : machine.run empty es = some r)
    (hes : ∀ c, ∀ e ∈ es, e ≠ .crash c ∧ e ≠ .reject c) (hempty : ∀ c, r.pending c = []) :
    r.log.Perm (issues es) := by
  classical
  refine List.perm_iff_count.mpr fun x => ?_
  have horder := log_append_pending hrun (hes x.1)
  rw [hempty, List.map_nil, List.append_nil] at horder
  have hcount : ∀ l : List (ι × U), (l.filter (·.1 = x.1)).count x = l.count x :=
    fun l => List.count_filter (by simp)
  rw [← hcount r.log, horder, hcount]

end Order

end Replica
