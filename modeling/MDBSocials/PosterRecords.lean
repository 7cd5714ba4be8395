import MDBSocials.Cells
import MDBSocials.PostSchema

/-!
# The Records of Posters

A feed row asks for the record of its poster and unwraps its fields. The account, the
record under `User` and the record under `Posts` are made in three steps. When the
process ends after the first, the account and its session are there and its record is
never written.

## Main results

* `PosterInv.row`: what the server answers a device about the poster of a post that the
  device shows can be decoded.
* `posters_recorded`: every post has its poster's record, and no row of any device traps on
  it, as long as a post is only written by a user whose record is at the server, or in front
  of the post in the queue of the same device. This condition is exact.
* `poster_unrecorded`: a process that ends right after the account was made breaks it.
-/

namespace MDBSocials

/-- The write creates the record of this user. -/
def Write.CreatesUser (uid : Uid) : Write → Prop
  | .createNewUser uid' _ => uid' = uid
  | _ => False

instance (uid : Uid) (w : Write) : Decidable (w.CreatesUser uid) := by
  rcases w <;> dsimp only [Write.CreatesUser] <;> infer_instance

/-- What a write needs in front of it for its record to have a poster: the poster's
record. -/
def Write.NeedsPoster : Write → List Write → Prop
  | .newPost _ post, pre => ∃ w ∈ pre, w.CreatesUser post.posterId
  | _, _ => True

theorem monotoneDep_needsPoster : Replica.MonotoneDep Write.NeedsPoster := by
  intro w pre pre' hsub h
  cases w with
  | newPost key post =>
      obtain ⟨x, hx, hcreates⟩ := h
      exact ⟨x, hsub hx, hcreates⟩
  | _ => trivial

/-- Only the creation of a user changes the user's record. -/
theorem sub_user_write {db : Node} {w : Write} {uid : Uid} (hw : ¬ w.CreatesUser uid) :
    (db.set w.path w.value).sub ["User", uid] = db.sub ["User", uid] := by
  cases w with
  | createNewUser uid' user =>
      have hne : uid' ≠ uid := hw
      exact PathTree.sub_set_of_incomparable (by simpa [Write.path] using hne)
        (by simpa [Write.path] using hne.symm)
  | newPost | updateInterested =>
      exact PathTree.sub_set_of_incomparable (by simp [Write.path]) (by simp [Write.path])

/-- A user who was created has a record. -/
theorem isUser_applyWrites {us : List Write} {uid : Uid} (h : ∃ w ∈ us, w.CreatesUser uid) :
    ∃ user, IsUser user ((applyWrites .empty us).sub ["User", uid]) := by
  induction us using List.reverseRecOn with
  | nil =>
      obtain ⟨w, hw, -⟩ := h
      cases hw
  | append_singleton us w ih =>
      rw [applyWrites_snoc]
      by_cases hw : w.CreatesUser uid
      · cases w with
        | createNewUser uid' user =>
            obtain rfl : uid' = uid := hw
            refine ⟨user, ?_⟩
            rw [Write.path, Write.value, PathTree.sub_set_self]
            exact user.isUser_node
        | newPost | updateInterested => exact hw.elim
      · rw [sub_user_write hw]
        obtain ⟨x, hx, hcreates⟩ := h
        rcases List.mem_append.mp hx with hx | hx
        · exact ih ⟨x, hx, hcreates⟩
        · exact absurd (List.mem_singleton.mp hx ▸ hcreates) hw

/-- A user who was not created has none. -/
theorem sub_user_eq_empty {us : List Write} {uid : Uid} (h : ∀ w ∈ us, ¬ w.CreatesUser uid) :
    (applyWrites .empty us).sub ["User", uid] = .empty := by
  induction us using List.reverseRecOn with
  | nil => rfl
  | append_singleton us w ih =>
      rw [applyWrites_snoc, sub_user_write (h w (by simp))]
      exact ih fun x hx => h x (List.mem_append_left _ hx)

namespace World

variable [Platform] {ι : Type} [DecidableEq ι] {w w' : World ι} {c : ι} {a : ClientAction}

/-- There is a record of the user, and `getUserWithId` decodes it. -/
def HasRecord (t : Node) (uid : Uid) : Prop :=
  ∃ user, IsUser user (t.sub ["User", uid]) ∧ userOfSnapshot uid (t.sub ["User", uid]) =
    .ok { id := some uid, name := user.name, username := user.username, email := user.email }

/-- Every post has a poster whose record `getUserWithId` can decode. -/
structure PostersRecorded (w : World ι) : Prop where
  /-- The records under `Posts`. -/
  records : ∀ key ∈ (w.serverTree.sub ["Posts"]).children, ∃ posterId,
    stringField (w.serverTree.sub ["Posts", key]) "posterId" = some posterId ∧
    HasRecord w.serverTree posterId
  /-- The rows, requests and screens of the devices, whose posts may be on their way. -/
  rows : ∀ c r, (w.app c).Holds r → ∃ posterId,
    ((w.app c).objects r).posterId = some posterId ∧ HasRecord (w.answer c) posterId
  /-- No reply to a row has trapped. -/
  unwrapped : ∀ c q succeeded trap, ((c, .feed (.userReply q succeeded)), trap) ∉ w.traps

/-- A post is written only while the record of its poster is at the server or in the
queue of the same device. -/
def PosterKnown (w : World ι) : ι × ClientAction → Prop
  | (c, .uploadSucceeds _ _) =>
      match (w.app c).currentUser with
      | some uid => ∃ x ∈ w.db.serverSeq ++ w.db.pending c, x.CreatesUser uid
      | none => True
  | _ => True

instance (w : World ι) (a : ι × ClientAction) : Decidable (w.PosterKnown a) := by
  dsimp only [PosterKnown]
  split
  · split <;> infer_instance
  · infer_instance

/-- The server's log has each post behind the record of its poster, and the requests of rows
ask for the posters of their posts. -/
structure PosterInv (w : World ι) : Prop where
  schema : SchemaInv w
  created : CreatedInv w
  posters : Replica.Causal Write.NeedsPoster w.db
  requests : ∀ c, Sources.any.CachesOwn (w.app c)
  unwrapped : ∀ c q succeeded trap, ((c, .feed (.userReply q succeeded)), trap) ∉ w.traps

theorem posterInv_initial : PosterInv (initial : World ι) :=
  ⟨schemaInv_initial, createdInv_initial, Replica.causal_empty,
    fun _ => Sources.cachesOwn_launch none .empty, nofun⟩

/-- **A row's poster has a record** in what the server answers the device. -/
theorem PosterInv.row (h : PosterInv w) {r : PostRef} (hr : (w.app c).Holds r) :
    ∃ posterId, ((w.app c).objects r).posterId = some posterId ∧
      HasRecord (w.answer c) posterId := by
  have hfaith := h.schema.apps c
  obtain ⟨key, post, hpost, hrec⟩ := hfaith.objects r (hfaith.allocated r hr)
  -- the post is in the log, or on its way behind its poster's record
  have hthere := (w.db.viewSeq_sublist c).subset hpost
  obtain ⟨user, huser⟩ :=
    isUser_applyWrites ((h.posters.append c).dep_of_mem monotoneDep_needsPoster hthere)
  exact ⟨post.posterId, congrArg Post.posterId hrec, user, huser, huser.userOfSnapshot _⟩

/-- **No reply traps** that a row has asked for. -/
theorem PosterInv.reply (h : PosterInv w) {q : UserRequest} {succeeded : Bool} {trap : Trap} :
    w.perform c (.feed (.userReply q succeeded)) ≠ some (.error trap) := by
  intro htrap
  obtain ⟨a', hinput, htrap⟩ := feed_eq_error.mp htrap
  obtain rfl := Option.some.inj hinput
  obtain ⟨hq, htrap⟩ := Option.ite_none_right_eq_some.mp htrap
  cases succeeded with
  | false => cases htrap
  | true =>
      obtain ⟨posterId, hposter, user, -, hmodel⟩ := h.row (c := c) (.ofUser hq)
      obtain rfl := Option.some.inj (((h.requests c).users q hq).symm.trans hposter)
      simp only [if_true, App.userReply, hmodel] at htrap
      cases htrap

theorem PosterInv.step (h : PosterInv w) (ha : Accepted a) (hg : PosterKnown w (c, a))
    (hst : Step w c a w') : PosterInv w' := by
  refine ⟨h.schema.step ha hst, h.created.step hst, ?_, fun d => ?_,
    fun d q succeeded trap hmem => ?_⟩
  · have hissues : w'.db = w.db ∨
        ∃ e, w.db.step e = some w'.db ∧ Replica.IssuesAfter Write.NeedsPoster w.db e := by
      refine hst.db.event_of (fun _ _ _ _ _ _ _ _ _ => trivial) ?_ (fun _ _ => trivial) trivial ?_
        (fun _ => trivial) trivial
      · rintro i key u uid rfl huid
        simp only [PosterKnown, huid] at hg
        exact hg
      · rintro rfl
        exact ha.elim
    rcases hissues with hsame | ⟨e, he, hissues⟩
    · exact hsame ▸ h.posters
    · exact h.posters.step monotoneDep_needsPoster hissues he
  · by_cases hd : d = c
    · subst hd
      rcases hst.app with ⟨-, u, hlaunch⟩ | ⟨⟨as, hrun, -⟩, -⟩
      · exact hlaunch ▸ Sources.cachesOwn_launch u _
      · exact (h.requests d).run (fun a _ => Sources.answers_any a) hrun
    · rw [World.app, hst.clients_of_ne hd]
      exact h.requests d
  · rcases hst.mem_traps hmem with hold | ⟨⟨-, rfl⟩, htrap⟩
    · exact h.unwrapped d q succeeded trap hold
    · exact h.reply htrap

theorem posterInv_of_run {as : List (ι × ClientAction)}
    (hrun : accepted.run initial as = some w)
    (hg : accepted.Guarded PosterKnown (initial : World ι) as) : PosterInv w :=
  hg.run_invariant (fun w a w' hw ha hst => by
    obtain ⟨hacc, hst⟩ := Machine.restrict_step.mp hst
    exact hw.step hacc ha (step_cases hst)) posterInv_initial hrun

theorem PosterInv.postersRecorded (h : PosterInv w) : PostersRecorded w where
  records key hkey := by
    obtain ⟨post, hpost, hrec⟩ := postsOf_applyWrites h.schema.causal.server key hkey
    obtain ⟨user, huser⟩ :=
      isUser_applyWrites (h.posters.server.dep_of_mem monotoneDep_needsPoster hpost)
    exact ⟨post.posterId, stringField_of_sub hrec.posterId, user, huser, huser.userOfSnapshot _⟩
  rows _ _ := h.row
  unwrapped := h.unwrapped

/-! ### The condition is exact -/

/-- A step that breaks the condition writes a post of a user who was not created. -/
theorem newPost_of_not_posterKnown (h : w.step (c, a) = some w')
    (hbreak : ¬ PosterKnown w (c, a)) : ∃ (key : Key) (u : Upload) (uid : Uid),
      (¬ ∃ x ∈ w.db.serverSeq ++ w.db.pending c, x.CreatesUser uid) ∧
      w'.db = w.db.issue c (.newPost key (u.post uid)) := by
  cases a with
  | uploadSucceeds i key =>
      cases huser : (w.app c).currentUser with
      | none => simp [PosterKnown, huser] at hbreak
      | some uid =>
          simp only [PosterKnown, huser] at hbreak
          cases step_cases h with
          | @uploadSucceeds _ _ u write hkey hu hwrite =>
              obtain ⟨uid', huid, rfl⟩ := Upload.succeeded_eq_ok.mp hwrite
              obtain rfl := Option.some.inj (huser.symm.trans huid)
              exact ⟨key, u, uid, hbreak, rfl⟩
          | trapped htrap =>
              -- with a user signed in, the completion does not trap
              obtain ⟨-, htrap⟩ := Option.ite_none_right_eq_some.mp htrap
              obtain ⟨u, -, htrap⟩ := Option.map_eq_some_iff.mp htrap
              rw [Upload.succeeded_eq_ok.mpr ⟨uid, huser, rfl⟩] at htrap
              cases htrap
  | _ => exact absurd trivial hbreak

/-- A post at the server whose poster was never created has no poster's record. -/
theorem not_postersRecorded (hschema : SchemaInv w) (hcreated : CreatedInv w) {key : Key}
    {post : NewPost} (hpost : .newPost key post ∈ w.db.serverSeq)
    (hnone : ∀ x ∈ w.db.serverSeq, ¬ x.CreatesUser post.posterId) : ¬ PostersRecorded w := by
  intro h
  obtain ⟨posterId, hfield, user, huser, -⟩ := h.records key (mem_children_of_newPost hpost)
  obtain ⟨post', hpost', hrec⟩ := postsOf_applyWrites hschema.causal.server key
    (mem_children_of_newPost hpost)
  obtain ⟨u, hu⟩ := hcreated.issued key post (Or.inl hpost)
  obtain ⟨u', hu'⟩ := hcreated.issued key post' (Or.inl hpost')
  obtain ⟨-, hsame⟩ := Prod.mk.inj (hcreated.unique _ hu _ hu' key post post' rfl rfl)
  obtain ⟨-, rfl⟩ := Write.newPost.inj hsame
  obtain rfl : post.posterId = posterId :=
    Option.some.inj ((stringField_of_sub hrec.posterId).symm.trans hfield)
  have hempty : w.serverTree.sub ["User", post.posterId] = .empty := sub_user_eq_empty hnone
  have hname := huser.name
  rw [hempty] at hname
  have := congrArg (PathTree.get · []) hname
  cases this

/-- **Poster records exist.** In every run of any number of devices, whichever processes
end and whichever writes they lose, every record under `Posts` and every post that a device
shows has a poster whose record can be decoded, and no reply to a row traps, as long as each
post is written while the record of its poster is at the server or ahead in the same queue. A
post written without can always go on to be one whose poster has no record. -/
theorem posters_recorded :
    accepted.ExactGuard (initial : World ι) PosterKnown PostersRecorded where
  safe as w hrun hg := (posterInv_of_run hrun hg).postersRecorded
  sharp as w a w' hrun hg hst hbreak := by
    obtain ⟨c, a⟩ := a
    have hrun' : accepted.run initial (as ++ [(c, a)]) = some w' :=
      Machine.run_snoc_eq_some.mpr ⟨w, hrun, hst⟩
    obtain ⟨key, u, uid, hnone, hdb⟩ :=
      newPost_of_not_posterKnown (Machine.restrict_step.mp hst).2 hbreak
    obtain ⟨bs, w'', hbs, hserver, -⟩ := arrive_all w' c
    have hrun'' := Machine.run_append_eq_some.mpr ⟨w', hrun', hbs⟩
    obtain ⟨hschema, hcreated⟩ := invariants_of_run hrun''
    have hlog : w''.db.serverSeq =
        w.db.serverSeq ++ w.db.pending c ++ [.newPost key (u.post uid)] := by
      rw [hserver, hdb]
      simp [Replica.issue, Replica.serverSeq]
    refine ⟨bs, w'', hbs, not_postersRecorded hschema hcreated
      (hlog ▸ List.mem_append_right _ (List.mem_singleton_self _)) fun x hx hcreates => ?_⟩
    rw [hlog] at hx
    rcases List.mem_append.mp hx with hx | hx
    · exact hnone ⟨x, hx, hcreates⟩
    · rw [List.mem_singleton.mp hx] at hcreates
      exact hcreates

end World

/-! ### A sign-up that was cut short -/

namespace World

attribute [local instance] Platform.reference

/-- Ann's process ends right after her account was made. The session survives, she posts,
and her feed shows the post. -/
def annPostsUnrecorded : List (ℕ × ClientAction) :=
  [(0, .signUp ⟨"Ann", "ann1", "ann@x.org"⟩), (0, .accountCreated 0 "ann"), (0, .terminate)] ++
    annPosts ++ [(0, .arrive), (0, .feed .viewWillAppear), (0, .feed (.deliver 0)),
      (0, .feed (.cellForRowAt 0 0))]

/-- Ann's post has no poster's record, and the reply about her traps. -/
theorem poster_unrecorded : ∃ w : World ℕ, accepted.run initial (annPostsUnrecorded ++
      [(0, .feed (.userReply ⟨0, 0, "ann"⟩ true))]) = some w ∧
    w.traps.map Prod.snd = [.forcedUnwrap "(value?[\"username\"] as? String)!"] ∧
    ¬ PostersRecorded w := by
  have hrun : (accepted.run (initial : World ℕ) (annPostsUnrecorded ++
      [(0, .feed (.userReply ⟨0, 0, "ann"⟩ true))])).map (fun w =>
        (w.traps.map Prod.snd, decide ("-L0" ∈ (w.serverTree.sub ["Posts"]).children),
          stringField (w.serverTree.sub ["Posts", "-L0"]) "posterId",
          (userOfSnapshot "ann" (w.serverTree.sub ["User", "ann"])).toOption)) =
      some ([.forcedUnwrap "(value?[\"username\"] as? String)!"], true, some "ann", none) := by
    decide
  obtain ⟨w, hw, hfacts⟩ := Option.map_eq_some_iff.mp hrun
  simp only [Prod.mk.injEq, decide_eq_true_eq] at hfacts
  obtain ⟨htraps, hkey, hposter, hnone⟩ := hfacts
  refine ⟨w, hw, htraps, fun h => ?_⟩
  obtain ⟨posterId, hfield, user, -, hmodel⟩ := h.records "-L0" hkey
  obtain rfl := Option.some.inj (hposter.symm.trans hfield)
  rw [hmodel] at hnone
  cases hnone

end World

end MDBSocials
