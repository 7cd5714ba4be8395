import MDBSocials.Lib.Replica

/-!
# Refused Updates

When the server refuses an update of a replicated log, the state is the one that the
same events lead to without it. `Extra c u r r'` compares the two runs: the state `r'` is
`r` with one more update `u` in the queue of `c`.

## Main results

* `Extra.step`: one more update makes no difference to an event that does not take it out
  of its queue.
* `Extra.reject`: refusing it leaves the state without it.
-/

namespace Replica

variable {ι U : Type*} [DecidableEq ι]

/-- `r'` is `r` with one more update `u` somewhere in the queue of `c`. -/
structure Extra (c : ι) (u : U) (r r' : Replica ι U) : Prop where
  log : r'.log = r.log
  seen : r'.seen = r.seen
  others : ∀ d ≠ c, r'.pending d = r.pending d
  queue : ∃ pre suf, r.pending c = pre ++ suf ∧ r'.pending c = pre ++ u :: suf ∧
    u ∉ pre ∧ u ∉ suf

theorem extra_issue {r : Replica ι U} {c : ι} {u : U} (h : u ∉ r.pending c) :
    Extra c u r (r.issue c u) where
  log := rfl
  seen := rfl
  others d hd := by simp [issue, hd]
  queue := ⟨r.pending c, [], by simp, by simp [issue], h, by simp⟩

/-- What a client's queue holds was there or has just been issued. -/
theorem mem_pending_of_step {r r' : Replica ι U} {e : Event ι U} (hs : r.step e = some r')
    {c : ι} {u : U} (h : u ∈ r'.pending c) : u ∈ r.pending c ∨ e = .issue c u := by
  have dequeue : ∀ {d us v}, r.pending d = v :: us →
      r'.pending = Function.update r.pending d us → u ∈ r.pending c := by
    intro d us v hp hpend
    rw [hpend] at h
    by_cases hd : c = d
    · subst hd
      rw [Function.update_self] at h
      exact hp ▸ List.mem_cons_of_mem _ h
    · rwa [Function.update_of_ne hd] at h
  cases e with
  | issue d v =>
      obtain rfl := Option.some.inj hs
      by_cases hd : c = d
      · subst hd
        simp only [issue, Function.update_self] at h
        rcases List.mem_append.mp h with h | h
        · exact Or.inl h
        · exact Or.inr (by rw [List.mem_singleton.mp h])
      · simp only [issue, Function.update_of_ne hd] at h
        exact Or.inl h
  | arrive d =>
      obtain ⟨v, us, hp, -, hpend, -⟩ := arrive_eq_some hs
      exact Or.inl (dequeue hp hpend)
  | reject d =>
      obtain ⟨v, us, hp, -, hpend, -⟩ := reject_eq_some hs
      exact Or.inl (dequeue hp hpend)
  | sync d n =>
      obtain ⟨-, -, -, hpend, -⟩ := sync_eq_some hs
      exact Or.inl (hpend ▸ h)
  | crash d =>
      obtain rfl := Option.some.inj hs
      by_cases hd : c = d
      · subst hd
        simp [crash] at h
      · simp only [crash, Function.update_of_ne hd] at h
        exact Or.inl h

/-- The oldest update leaves a queue: it is the additional one, or it leaves the queues of
both states. -/
theorem Extra.dequeue {c d : ι} {u v : U} {us : List U} {r r' : Replica ι U}
    (h : Extra c u r r') (hp : r'.pending d = v :: us) :
    (d = c ∧ u ∉ us) ∨ ∃ us₀, r.pending d = v :: us₀ ∧ ∀ s s' : Replica ι U,
      s.pending = Function.update r.pending d us₀ → s'.pending = Function.update r'.pending d us →
      s'.log = s.log → s'.seen = s.seen → Extra c u s s' := by
  obtain ⟨pre, suf, hr, hr', hpre, hsuf⟩ := h.queue
  by_cases hd : d = c
  · subst hd
    rw [hp] at hr'
    cases pre with
    | nil =>
        obtain ⟨-, rfl⟩ := List.cons.inj hr'
        exact Or.inl ⟨rfl, hsuf⟩
    | cons x pre =>
        obtain ⟨rfl, rfl⟩ := List.cons.inj hr'
        refine Or.inr ⟨pre ++ suf, hr, fun s s' hs hs' hlog hseen => ⟨hlog, hseen, ?_, ?_⟩⟩
        · intro b hb
          rw [hs, hs', Function.update_of_ne hb, Function.update_of_ne hb, h.others b hb]
        · exact ⟨pre, suf, by simp [hs], by simp [hs'], fun hx => hpre (List.mem_cons_of_mem _ hx),
            hsuf⟩
  · refine Or.inr ⟨us, (h.others d hd).symm.trans hp, fun s s' hs hs' hlog hseen =>
      ⟨hlog, hseen, fun b hb => ?_, pre, suf, ?_, ?_, hpre, hsuf⟩⟩
    · by_cases hbd : b = d
      · subst hbd
        simp [hs, hs']
      · rw [hs, hs', Function.update_of_ne hbd, Function.update_of_ne hbd, h.others b hb]
    · rw [hs, Function.update_of_ne (Ne.symm hd), hr]
    · rw [hs', Function.update_of_ne (Ne.symm hd), hr']

/-- **One more update makes no difference** to an event, as long as the event does not
take it out of its queue. -/
theorem Extra.step {c : ι} {u : U} {r r' s' : Replica ι U} {e : Event ι U}
    (h : Extra c u r r') (he : e ≠ .issue c u) (hs : r'.step e = some s') :
    (∃ s, r.step e = some s ∧ Extra c u s s') ∨ u ∉ s'.pending c := by
  obtain ⟨pre, suf, hr, hr', hpre, hsuf⟩ := h.queue
  cases e with
  | issue d v =>
      obtain rfl := Option.some.inj hs
      refine Or.inl ⟨r.issue d v, rfl, h.log, h.seen, fun b hb => ?_, ?_⟩
      · by_cases hbd : b = d
        · subst hbd
          simp [issue, h.others b hb]
        · simp [issue, hbd, h.others b hb]
      · by_cases hd : d = c
        · subst hd
          have hv : u ≠ v := fun huv => he (by rw [huv])
          exact ⟨pre, suf ++ [v], by simp [issue, hr], by simp [issue, hr'], hpre,
            by simp [hsuf, hv]⟩
        · exact ⟨pre, suf, by simp [issue, Ne.symm hd, hr], by simp [issue, Ne.symm hd, hr'],
            hpre, hsuf⟩
  | arrive d =>
      obtain ⟨v, us, hp, hlog, hpend, hseen⟩ := arrive_eq_some hs
      rcases h.dequeue hp with ⟨rfl, hu⟩ | ⟨us₀, hp₀, hextra⟩
      · exact Or.inr (by simp [hpend, hu])
      · obtain ⟨s, hs₀⟩ : ∃ s, r.arrive d = some s := by simp [arrive, hp₀]
        obtain ⟨v', us', hp', hlog', hpend', hseen'⟩ := arrive_eq_some hs₀
        obtain ⟨rfl, rfl⟩ := List.cons.inj (hp₀.symm.trans hp')
        exact Or.inl ⟨s, hs₀, hextra s s' hpend' hpend (by rw [hlog, hlog', h.log])
          (by rw [hseen, hseen', h.seen])⟩
  | reject d =>
      obtain ⟨v, us, hp, hlog, hpend, hseen⟩ := reject_eq_some hs
      rcases h.dequeue hp with ⟨rfl, hu⟩ | ⟨us₀, hp₀, hextra⟩
      · exact Or.inr (by simp [hpend, hu])
      · obtain ⟨s, hs₀⟩ : ∃ s, r.reject d = some s := by simp [Replica.reject, hp₀]
        obtain ⟨v', us', hp', hlog', hpend', hseen'⟩ := reject_eq_some hs₀
        obtain ⟨rfl, rfl⟩ := List.cons.inj (hp₀.symm.trans hp')
        exact Or.inl ⟨s, hs₀, hextra s s' hpend' hpend (by rw [hlog, hlog', h.log])
          (by rw [hseen, hseen', h.seen])⟩
  | sync d n =>
      obtain ⟨hle, hn, hlog, hpend, hseen⟩ := sync_eq_some hs
      obtain ⟨s, hs₀⟩ : ∃ s, r.sync d n = some s := by
        rw [h.seen] at hle
        rw [h.log] at hn
        simp [sync, hle, hn]
      obtain ⟨-, -, hlog', hpend', hseen'⟩ := sync_eq_some hs₀
      refine Or.inl ⟨s, hs₀, by rw [hlog, hlog', h.log], by rw [hseen, hseen', h.seen],
        fun b hb => by rw [hpend, hpend', h.others b hb], pre, suf, by rw [hpend', hr],
        by rw [hpend, hr'], hpre, hsuf⟩
  | crash d =>
      obtain rfl := Option.some.inj hs
      by_cases hd : d = c
      · subst hd
        exact Or.inr (by simp [crash])
      · refine Or.inl ⟨r.crash d, rfl, h.log, by simp [crash, h.seen, h.log], fun b hb => ?_,
          pre, suf, by simp [crash, Ne.symm hd, hr], by simp [crash, Ne.symm hd, hr'], hpre, hsuf⟩
        by_cases hbd : b = d
        · subst hbd
          simp [crash]
        · simp [crash, hbd, h.others b hb]

/-- **Refusing the additional update** leaves the state without it. -/
theorem Extra.reject {c : ι} {u : U} {us : List U} {r r' s' : Replica ι U}
    (h : Extra c u r r') (hp : r'.pending c = u :: us) (hs : r'.reject c = some s') :
    s' = r := by
  obtain ⟨pre, suf, hr, hr', hpre, -⟩ := h.queue
  obtain ⟨v, us', hp', hlog, hpend, hseen⟩ := reject_eq_some hs
  rw [hp] at hr' hp'
  cases pre with
  | cons x pre => exact absurd List.mem_cons_self ((List.cons.inj hr').1 ▸ hpre)
  | nil =>
      obtain ⟨-, rfl⟩ := List.cons.inj hr'
      obtain ⟨-, rfl⟩ := List.cons.inj hp'
      refine Replica.ext (hlog.trans h.log) ?_ (hseen.trans h.seen)
      funext b
      rw [hpend]
      by_cases hb : b = c
      · subst hb
        simp [hr]
      · simp [hb, h.others b hb]

end Replica
