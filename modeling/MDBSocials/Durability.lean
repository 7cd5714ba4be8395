import MDBSocials.InterestCount
import MDBSocials.PosterRecords
import MDBSocials.Rejection

/-!
# Durability and Agreement

The application never deletes anything and never waits for the server: the completions of
`newPost`, `createNewUser` and `updateInterested` run at once, and what becomes of the calls
of `updateChildValues` they made is up to Firebase. This module says what the devices and
the server can rely on all the same.

A call is `Shown` by a database when its post's record, its interest's entry, or some record
of its user is there. A database of causal writes shows exactly the calls among them, so it is
enough to follow the writes through the replicated log.

## Main results

* `server_keeps`: the posts and interests that the server shows it goes on showing, whichever
  processes end, and users go on having records.
* `device_keeps`: so it is with a device whose process does not end, which also shows its own
  calls.
* `calls_arrive`: once the queues are empty, the server holds each call exactly once, and
  those of each device in order.
* `converges`: devices that have been told of everything agree, and can always be.
-/

namespace MDBSocials

open scoped List

/-! ### What a database shows -/

/-- The record of a post or the entry of an interest that a call made is there, or some record
of its user, which may be that of another call. -/
def Write.Shown (t : Node) : Write → Prop
  | .newPost key post => IsPost post (t.sub ["Posts", key])
  | .createNewUser uid _ => ∃ user, IsUser user (t.sub ["User", uid])
  | .updateInterested postId key uid =>
      (key, uid) ∈ interestEntries (t.sub ["Posts", postId, "Interested"])

/-- A node is the record of one post only. -/
theorem IsPost.unique {post post' : NewPost} {t : Node} (h : IsPost post t)
    (h' : IsPost post' t) : post = post' := by
  obtain ⟨name, pictureURL, posterId, description, date⟩ := post
  obtain rfl := leaf_string_injective (h.name.symm.trans h'.name)
  obtain rfl := leaf_string_injective (h.pictureURL.symm.trans h'.pictureURL)
  obtain rfl := leaf_string_injective (h.posterId.symm.trans h'.posterId)
  obtain rfl := leaf_string_injective (h.description.symm.trans h'.description)
  obtain rfl := leaf_string_injective (h.date.symm.trans h'.date)
  rfl

section Shown

variable {us vs : List Write} {x : Write}

/-- The record of a post is that of the one call with its key. -/
theorem isPost_iff (h : Replica.CausalFrom Write.Needs [] us)
    (hkeys : (us.filterMap Write.autoKey).Nodup) {key : Key} {post : NewPost} :
    IsPost post ((applyWrites .empty us).sub ["Posts", key]) ↔ .newPost key post ∈ us := by
  constructor
  · intro hrec
    have hkey : key ∈ ((applyWrites .empty us).sub ["Posts"]).children := by
      have hname := congrArg (PathTree.get · []) hrec.name
      refine PathTree.mem_children.mpr ⟨["name"], ?_⟩
      exact Option.isSome_iff_exists.mpr ⟨_, hname⟩
    obtain ⟨post', hpost', hrec'⟩ := postsOf_applyWrites h key hkey
    exact hrec.unique hrec' ▸ hpost'
  · intro hpost
    obtain ⟨post', hpost', hrec⟩ := postsOf_applyWrites h key (mem_children_of_newPost hpost)
    have hsame : Write.newPost key post = .newPost key post' :=
      Replica.eq_of_nodup_filterMap hkeys hpost hpost' rfl rfl
    exact (Write.newPost.inj hsame).2 ▸ hrec

/-- A user has a record when some call created it. -/
theorem isUser_iff {uid : Uid} : (∃ user, IsUser user ((applyWrites .empty us).sub ["User", uid])) ↔
    ∃ w ∈ us, w.CreatesUser uid := by
  refine ⟨fun ⟨user, huser⟩ => ?_, isUser_applyWrites⟩
  by_contra hnone
  have hempty : (applyWrites .empty us).sub ["User", uid] = .empty :=
    sub_user_eq_empty fun w hw hc => hnone ⟨w, hw, hc⟩
  have hname := huser.name
  rw [hempty] at hname
  have := congrArg (PathTree.get · []) hname
  cases this

/-- A database of causal writes shows the calls among them. -/
theorem shown_of_mem (h : Replica.CausalFrom Write.Needs [] us)
    (hkeys : (us.filterMap Write.autoKey).Nodup) (hx : x ∈ us) :
    x.Shown (applyWrites .empty us) := by
  cases x with
  | newPost key post => exact (isPost_iff h hkeys).mpr hx
  | createNewUser uid user => exact isUser_iff.mpr ⟨_, hx, rfl⟩
  | updateInterested postId key uid => exact (mem_interestEntries h hkeys).mpr hx

/-- The key of a new post. -/
def Write.newPostKey : Write → Option Key
  | .newPost key _ => some key
  | _ => none

/-- The posts of a database of causal writes are those of the calls of `newPost`. -/
theorem childKeys_posts (h : Replica.CausalFrom Write.Needs [] us)
    (hkeys : (us.filterMap Write.autoKey).Nodup) :
    ((applyWrites .empty us).sub ["Posts"]).childKeys ~ us.filterMap Write.newPostKey := by
  have hsub : (us.filterMap Write.newPostKey).Sublist (us.filterMap Write.autoKey) := by
    have hmap := Replica.map_filterMap_sublist (f := Write.newPostKey) (g := id)
      (h := Write.autoKey) (fun w k hk => by
        cases w with
        | newPost key post => exact hk
        | _ => cases hk) us
    rwa [List.map_id] at hmap
  refine (List.perm_ext_iff_of_nodup (PathTree.nodup_childKeys _) (hkeys.sublist hsub)).mpr
    fun key => ?_
  rw [PathTree.mem_childKeys, mem_children_posts, List.mem_filterMap]
  constructor
  · rintro ⟨w, hw, hpost⟩
    cases w with
    | newPost key' post => exact ⟨_, hw, hpost⟩
    | createNewUser uid user => cases hpost
    | updateInterested postId key' uid =>
        obtain rfl := Option.some.inj hpost
        obtain ⟨-, post, hneeded⟩ := h.dep_of_mem monotoneDep_needs hw
        exact ⟨_, hneeded, rfl⟩
  · rintro ⟨w, hw, hkey⟩
    cases w with
    | newPost key' post => exact ⟨_, hw, hkey⟩
    | _ => cases hkey

/-- The entries of a post in such a database are those of the interests in it. -/
theorem interestEntries_perm (h : Replica.CausalFrom Write.Needs [] us)
    (hkeys : (us.filterMap Write.autoKey).Nodup) (postId : Key) :
    interestEntries ((applyWrites .empty us).sub ["Posts", postId, "Interested"]) ~
      interestsIn postId us := by
  have hentries : ((interestsIn postId us).map Prod.fst).Nodup :=
    hkeys.sublist (keys_interestsIn_sublist postId us)
  refine (List.perm_ext_iff_of_nodup (keys_interestEntries_nodup _).of_map
    hentries.of_map).mpr fun e => ?_
  rw [mem_interestEntries h hkeys]
  simp [interestsIn, List.mem_filterMap, Write.interestIn_eq_some]

/-- A database that shows all posts and interests that another one shows, and some record of
each user of whom the other one shows one. -/
structure Kept (t t' : Node) : Prop where
  shown : ∀ x : Write, x.Shown t → x.Shown t'
  posts : (t.sub ["Posts"]).children ⊆ (t'.sub ["Posts"]).children
  interested : ∀ postId, userIds (t.sub ["Posts", postId, "Interested"]) <+~
    userIds (t'.sub ["Posts", postId, "Interested"])

/-- More causal writes show more. -/
theorem kept_of_subset (hus : Replica.CausalFrom Write.Needs [] us)
    (huskeys : (us.filterMap Write.autoKey).Nodup)
    (hvs : Replica.CausalFrom Write.Needs [] vs)
    (hvskeys : (vs.filterMap Write.autoKey).Nodup) (hsub : us ⊆ vs) :
    Kept (applyWrites .empty us) (applyWrites .empty vs) := by
  refine ⟨fun x hx => ?_, fun key hkey => ?_, fun postId => ?_⟩
  · cases x with
    | newPost key post => exact (isPost_iff hvs hvskeys).mpr (hsub ((isPost_iff hus huskeys).mp hx))
    | createNewUser uid user =>
        obtain ⟨w, hw, hcreates⟩ := isUser_iff.mp hx
        exact isUser_iff.mpr ⟨w, hsub hw, hcreates⟩
    | updateInterested postId key uid =>
        exact (mem_interestEntries hvs hvskeys).mpr
          (hsub ((mem_interestEntries hus huskeys).mp hx))
  · obtain ⟨w, hw, hpost⟩ := mem_children_posts.mp hkey
    exact mem_children_posts.mpr ⟨w, hsub hw, hpost⟩
  · rw [← map_snd_interestEntries, ← map_snd_interestEntries]
    have hentries := keys_interestEntries_nodup
      ((applyWrites .empty us).sub ["Posts", postId, "Interested"])
    obtain ⟨es, hperm, hes⟩ := List.subperm_of_subset hentries.of_map fun e he =>
      (mem_interestEntries hvs hvskeys).mpr (hsub ((mem_interestEntries hus huskeys).mp he))
    exact ⟨es.map Prod.snd, hperm.map _, hes.map _⟩

end Shown

namespace World

variable [Platform] {ι : Type} [DecidableEq ι] {w w' : World ι} {c : ι} {a : ClientAction}

/-! ### The calls of a run -/

/-- The calls of `updateChildValues` in a run, with the devices that made them. -/
def calls (w : World ι) (as : List (ι × ClientAction)) : List (ι × Write) :=
  Replica.issues (w.dbEvents as)

/-- The end of a process by the user or the system. -/
def Terminates : ClientAction → Prop
  | .terminate => True
  | _ => False

instance (a : ClientAction) : Decidable (Terminates a) := by
  rcases a <;> dsimp only [Terminates] <;> infer_instance

/-- The process of a device does not end in the step. -/
def Survives (c : ι) (w : World ι) (a : ι × ClientAction) : Prop :=
  a.1 = c → ¬ Terminates a.2 ∧ (w.perform a.1 a.2).all Except.isOk

instance (c : ι) (w : World ι) (a : ι × ClientAction) : Decidable (Survives c w a) :=
  inferInstanceAs (Decidable (_ → _))

/-- What the database makes of a step in which no write is refused and the process of a
device does not end. -/
theorem dbEvent_of_survives {d : ι} {e : Replica.Event ι Write} (ha : Accepted a)
    (hup : Survives c w (d, a)) (he : w.dbEvent (d, a) = some e) :
    e ≠ .crash c ∧ e ≠ .reject c := by
  cases hp : w.perform d a with
  | none => simp [dbEvent, hp] at he
  | some outcome =>
      cases outcome with
      | error trap =>
          simp only [dbEvent, hp] at he
          obtain rfl := Option.some.inj he
          refine ⟨fun heq => ?_, by rintro ⟨⟩⟩
          obtain rfl := Replica.Event.crash.inj heq
          have hok := (hup rfl).2
          rw [hp] at hok
          cases hok
      | ok w'' =>
          cases a with
          | tappedInterested | uploadSucceeds | signUpSucceeds =>
              simp only [dbEvent, hp] at he
              obtain ⟨x, -, rfl⟩ := Option.map_eq_some_iff.mp he
              exact ⟨by rintro ⟨⟩, by rintro ⟨⟩⟩
          | arrive | sync =>
              simp only [dbEvent, hp] at he
              obtain rfl := Option.some.inj he
              exact ⟨by rintro ⟨⟩, by rintro ⟨⟩⟩
          | reject => exact ha.elim
          | terminate =>
              simp only [dbEvent, hp] at he
              obtain rfl := Option.some.inj he
              refine ⟨fun heq => ?_, by rintro ⟨⟩⟩
              obtain rfl := Replica.Event.crash.inj heq
              exact (hup rfl).1 trivial
          | _ => simp [dbEvent, hp] at he

theorem dbEvents_of_survives {as : List (ι × ClientAction)} (hrun : accepted.run w as = some w')
    (hup : accepted.Guarded (Survives c) w as) :
    ∀ e ∈ w.dbEvents as, e ≠ .crash c ∧ e ≠ .reject c := by
  induction as generalizing w with
  | nil => exact nofun
  | cons a as ih =>
      obtain ⟨w₁, hst, hrun⟩ := Machine.run_cons_eq_some.mp hrun
      obtain ⟨ha, hst'⟩ := Machine.restrict_step.mp hst
      intro e he
      rw [dbEvents_cons hst'] at he
      rcases List.mem_append.mp he with he | he
      · exact dbEvent_of_survives ha hup.1 (Option.mem_toList.mp he)
      · exact ih hrun (hup.2 w₁ hst) e he

/-- What holds of the writes of a device and of the server after a run without refusals. -/
theorem schema_keys_of_run {as : List (ι × ClientAction)}
    (hrun : accepted.run initial as = some w) : SchemaInv w ∧ KeysInv w :=
  ⟨(invariants_of_run hrun).1, keysInv_of_run (Machine.restrict_run hrun)⟩

/-! ### What the server keeps -/

theorem log_prefix_of_run {as : List (ι × ClientAction)} (hrun : machine.run w as = some w') :
    w.db.log <+: w'.db.log :=
  Machine.run_invariant (M := Replica.machine) (I := fun r => w.db.log <+: r.log)
    (fun _ _ _ hr hs => hr.trans (Replica.log_prefix_of_step hs)) (List.prefix_refl _)
    (run_dbEvents hrun)

/-- **The server keeps everything.** Whichever processes end and whatever they lose, every
post and interest that the server shows at some point of a run it shows ever after, with the
same fields, no post's list of interested users gets shorter, and a user who has a record goes
on having one. Another sign-up of the user may replace its fields. -/
theorem server_keeps {as bs : List (ι × ClientAction)} (hrun : accepted.run initial as = some w)
    (hrun' : accepted.run w bs = some w') : Kept w.serverTree w'.serverTree := by
  obtain ⟨hschema, hkeys⟩ := schema_keys_of_run hrun
  obtain ⟨hschema', hkeys'⟩ := schema_keys_of_run
    (Machine.run_append_eq_some.mpr ⟨w, hrun, hrun'⟩)
  refine kept_of_subset hschema.causal.server hkeys.different.nodup_serverSeq
    hschema'.causal.server hkeys'.different.nodup_serverSeq (List.map_subset _ ?_)
  exact (log_prefix_of_run (Machine.restrict_run hrun')).subset

/-! ### What a device keeps -/

/-- **A device keeps what it has seen, and sees its own calls.** As long as its process does
not end, whatever post or interest it shows at some point of a run it shows ever after, and so
it does those it has called for itself, from the call on and before the server has them. A user
of whom it has shown or written a record goes on having one. -/
theorem device_keeps {as bs : List (ι × ClientAction)} (hrun : accepted.run initial as = some w)
    (hrun' : accepted.run w bs = some w') (hup : accepted.Guarded (Survives c) w bs) :
    Kept (w.localView c) (w'.localView c) ∧
      ∀ x, (c, x) ∈ w.calls bs → x.Shown (w'.localView c) := by
  obtain ⟨hschema, hkeys⟩ := schema_keys_of_run hrun
  obtain ⟨hschema', hkeys'⟩ := schema_keys_of_run
    (Machine.run_append_eq_some.mpr ⟨w, hrun, hrun'⟩)
  have hdb := run_dbEvents (Machine.restrict_run hrun')
  have hes := dbEvents_of_survives hrun' hup
  refine ⟨?_, fun x hx => ?_⟩
  · exact kept_of_subset (hschema.views c) (keys_view_nodup hkeys c) (hschema'.views c)
      (keys_view_nodup hkeys' c) (Replica.viewSeq_subset_of_run hes hdb)
  · exact shown_of_mem (hschema'.views c) (keys_view_nodup hkeys' c)
      (Replica.mem_viewSeq_of_issue hes hdb (Replica.mem_issues.mp hx))

/-! ### Every call arrives -/

/-- **No call is lost or applied twice.** In a run in which no process ends and no write is
refused, once all queues are empty the server's log consists of the calls made in the run,
each exactly once and those of each device in the order in which it made them. So the posts
at the server are those of the calls of `newPost`, and the entries of each post's interested
users are those of the calls of `updateInterested` on it, one for each tap. -/
theorem calls_arrive {as : List (ι × ClientAction)} (hrun : accepted.run initial as = some w)
    (hup : ∀ c, accepted.Guarded (Survives c) initial as) (hempty : ∀ c, w.db.pending c = []) :
    w.db.log ~ (initial : World ι).calls as ∧
    (∀ c, w.db.log.filter (·.1 = c) = ((initial : World ι).calls as).filter (·.1 = c)) ∧
    (w.serverTree.sub ["Posts"]).childKeys ~
      ((initial : World ι).calls as).filterMap (Write.newPostKey ∘ Prod.snd) ∧
    ∀ postId, interestEntries (w.serverTree.sub ["Posts", postId, "Interested"]) ~
      interestsIn postId (((initial : World ι).calls as).map Prod.snd) := by
  obtain ⟨hschema, hkeys⟩ := schema_keys_of_run hrun
  have hdb := run_dbEvents (Machine.restrict_run hrun)
  have hes := fun c => dbEvents_of_survives hrun (hup c)
  have hlog : w.db.log ~ (initial : World ι).calls as :=
    Replica.log_perm_issues hdb hes hempty
  have hserver : w.db.serverSeq ~ ((initial : World ι).calls as).map Prod.snd := hlog.map _
  have hcausal := hschema.causal.server
  have hnodup := hkeys.different.nodup_serverSeq
  refine ⟨hlog, fun c => ?_, ?_, fun postId => ?_⟩
  · have horder := Replica.log_append_pending hdb (hes c)
    rwa [hempty, List.map_nil, List.append_nil] at horder
  · rw [← List.filterMap_map]
    exact (childKeys_posts hcausal hnodup).trans (hserver.filterMap _)
  · exact (interestEntries_perm hcausal hnodup postId).trans (hserver.filterMap _)

/-! ### Agreement -/

/-- The network delivers a write, or tells a device of some. -/
def Delivers : ClientAction → Prop
  | .arrive | .sync _ => True
  | _ => False

/-- What the network can do to the database it can do in the system. -/
theorem run_delivers {es : List (Replica.Event ι Write)} (hes : ∀ e ∈ es, e.Delivers)
    {r : Replica ι Write} (h : Replica.machine.run w.db es = some r) :
    ∃ bs w', machine.run w bs = some w' ∧ (∀ a ∈ bs, Delivers a.2) ∧ w'.db = r := by
  induction es generalizing w with
  | nil => exact ⟨[], w, rfl, by simp, Option.some.inj h⟩
  | cons e es ih =>
      obtain ⟨r₁, hs, h⟩ := Machine.run_cons_eq_some.mp h
      have hstep : ∃ a w₁, Delivers a.2 ∧ machine.step w a = some w₁ ∧ w₁.db = r₁ := by
        have he := hes e List.mem_cons_self
        cases e with
        | arrive c =>
            refine ⟨(c, .arrive), { w with db := r₁ }, trivial, ?_, rfl⟩
            have harrive : w.db.arrive c = some r₁ := hs
            simp [machine, World.step, perform, harrive]
        | sync c n =>
            refine ⟨(c, .sync n), { w with db := r₁ }.refresh c, trivial, ?_, rfl⟩
            have hsync : w.db.sync c n = some r₁ := hs
            simp [machine, World.step, perform, hsync]
        | _ => exact he.elim
      obtain ⟨a, w₁, ha, hst, rfl⟩ := hstep
      obtain ⟨bs, w', hrun, hbs, hdb⟩ := ih (fun e he => hes e (List.mem_cons_of_mem _ he)) h
      refine ⟨a :: bs, w', Machine.run_cons_eq_some.mpr ⟨w₁, hst, hrun⟩, ?_, hdb⟩
      rintro b (_ | ⟨_, hb⟩)
      · exact ha
      · exact hbs b hb

theorem settled_agree (hcoherent : Coherent w) (h : w.db.Settled) (c : ι) :
    (w.app c).view = w.serverTree := by
  rw [hcoherent c, localView, h.viewSeq c]
  rfl

/-- The network can bring all writes to the server and to all devices. -/
theorem exists_delivered [Fintype ι] (w : World ι) : ∃ bs w', machine.run w bs = some w' ∧
    (∀ a ∈ bs, Delivers a.2) ∧ w'.db.Settled ∧ ∀ x, w.db.Issued x → x ∈ w'.db.serverSeq := by
  obtain ⟨es, r, hes, hdb, hsettled⟩ := w.db.exists_settled
  obtain ⟨bs, w', hrun, hbs, rfl⟩ := run_delivers hes hdb
  refine ⟨bs, w', hrun, hbs, hsettled, fun x hx => ?_⟩
  rcases hx.of_run hes hdb with hx | ⟨c, hx⟩
  · exact hx
  · rw [(hsettled c).1] at hx
    cases hx

/-- **Devices converge.** After every run at all, whichever writes were refused or lost on
the way, applications that have been told of everything see the database that the server
has; and wherever a run of finitely many devices stands, the network alone can bring that
about, with every write then on its way at the server. -/
theorem converges [Fintype ι] {as : List (ι × ClientAction)}
    (hrun : machine.run initial as = some w) :
    (w.db.Settled → ∀ c, (w.app c).view = w.serverTree) ∧
    ∃ bs w', machine.run w bs = some w' ∧ (∀ a ∈ bs, Delivers a.2) ∧ w'.db.Settled ∧
      (∀ x, w.db.Issued x → x ∈ w'.db.serverSeq) ∧ ∀ c, (w'.app c).view = w'.serverTree := by
  refine ⟨fun h => settled_agree (coherent_of_run hrun) h, ?_⟩
  obtain ⟨bs, w', hrun', hbs, hsettled, hissued⟩ := exists_delivered w
  have hrun'' : machine.run initial (as ++ bs) = some w' :=
    Machine.run_append_eq_some.mpr ⟨w, hrun, hrun'⟩
  exact ⟨bs, w', hrun', hbs, hsettled, hissued, settled_agree (coherent_of_run hrun'') hsettled⟩

end World

/-! ### A party of two -/

namespace World

attribute [local instance] Platform.reference

/-- The same run with two devices only. -/
def onTwo (as : List (ℕ × ClientAction)) : List (Fin 2 × ClientAction) :=
  as.map fun a => (Fin.ofNat 2 a.1, a.2)

/-- Ann signs up, posts a party and is interested in it. -/
def annsParty : List (Fin 2 × ClientAction) :=
  onTwo (annSignsUp ++ annPosts ++ tapsInterested 0 "-K0")

/-- What Ann has called for arrives. -/
def annsCallsArrive : List (Fin 2 × ClientAction) := [(0, .arrive), (0, .arrive), (0, .arrive)]

theorem server_keeps_party : ∃ w w' : World (Fin 2),
    accepted.run initial (annsParty ++ annsCallsArrive) = some w ∧
    accepted.run w [(0, .terminate), (1, .sync 2)] = some w' ∧
    "-L0" ∈ (w.serverTree.sub ["Posts"]).children ∧ Kept w.serverTree w'.serverTree := by
  have hrun : ((accepted.run (initial : World (Fin 2)) (annsParty ++ annsCallsArrive)).bind
      fun w => (accepted.run w [(0, .terminate), (1, .sync 2)]).map fun _ =>
        decide ("-L0" ∈ (w.serverTree.sub ["Posts"]).children)) = some true := by decide
  obtain ⟨w, hw, hrun⟩ := Option.bind_eq_some_iff.mp hrun
  obtain ⟨w', hw', hkey⟩ := Option.map_eq_some_iff.mp hrun
  exact ⟨w, w', hw, hw', of_decide_eq_true hkey, server_keeps hw hw'⟩

theorem device_keeps_party : ∃ w w' : World (Fin 2),
    accepted.run initial (onTwo annSignsUp) = some w ∧
    accepted.run w (onTwo (annPosts ++ tapsInterested 0 "-K0")) = some w' ∧
    Kept (w.localView 0) (w'.localView 0) ∧
    (Write.updateInterested "-L0" "-K0" "ann").Shown (w'.localView 0) := by
  have hrun : ((accepted.run (initial : World (Fin 2)) (onTwo annSignsUp)).bind fun w =>
      (accepted.run w (onTwo (annPosts ++ tapsInterested 0 "-K0"))).map fun _ =>
        (decide (accepted.Guarded (Survives 0) w (onTwo (annPosts ++ tapsInterested 0 "-K0"))),
          decide ((0, .updateInterested "-L0" "-K0" "ann") ∈
            w.calls (onTwo (annPosts ++ tapsInterested 0 "-K0"))))) = some (true, true) := by
    decide
  obtain ⟨w, hw, hrun⟩ := Option.bind_eq_some_iff.mp hrun
  obtain ⟨w', hw', hfacts⟩ := Option.map_eq_some_iff.mp hrun
  simp only [Prod.mk.injEq, decide_eq_true_eq] at hfacts
  obtain ⟨hup, hcall⟩ := hfacts
  obtain ⟨hkept, hown⟩ := device_keeps hw hw' hup
  exact ⟨w, w', hw, hw', hkept, hown _ hcall⟩

theorem calls_arrive_party : ∃ w : World (Fin 2),
    accepted.run initial (annsParty ++ annsCallsArrive) = some w ∧
    w.db.log ~ (initial : World (Fin 2)).calls (annsParty ++ annsCallsArrive) ∧
    interestEntries (w.serverTree.sub ["Posts", "-L0", "Interested"]) ~ [("-K0", "ann")] := by
  have hrun : (accepted.run (initial : World (Fin 2)) (annsParty ++ annsCallsArrive)).map
      (fun w => decide (∀ c, w.db.pending c = [])) = some true := by decide
  obtain ⟨w, hw, hempty⟩ := Option.map_eq_some_iff.mp hrun
  have hup : ∀ c, accepted.Guarded (Survives c) (initial : World (Fin 2))
      (annsParty ++ annsCallsArrive) := by decide
  have hcalls : interestsIn "-L0" (((initial : World (Fin 2)).calls
      (annsParty ++ annsCallsArrive)).map Prod.snd) = [("-K0", "ann")] := by decide
  obtain ⟨hlog, -, -, hentries⟩ := calls_arrive hw hup (of_decide_eq_true hempty)
  exact ⟨w, hw, hlog, hcalls ▸ hentries "-L0"⟩

theorem converges_party : ∃ w : World (Fin 2), machine.run initial annsParty = some w ∧
    ∃ bs w', machine.run w bs = some w' ∧ (∀ a ∈ bs, Delivers a.2) ∧ w'.db.Settled ∧
      (∀ x, w.db.Issued x → x ∈ w'.db.serverSeq) ∧ ∀ c, (w'.app c).view = w'.serverTree := by
  have hrun : (machine.run (initial : World (Fin 2)) annsParty).isSome := by decide
  obtain ⟨w, hw⟩ := Option.isSome_iff_exists.mp hrun
  exact ⟨w, hw, (converges hw).2⟩

end World

end MDBSocials
