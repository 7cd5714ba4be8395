import MDBSocials.FeedRecords
import MDBSocials.ReferencePlatform
import MDBSocials.World

/-!
# The Schema of Posts

`updateInterested` writes below a post's record, and would make a record without any
field if the post's own write had not been applied before. The interest of a user is only
issued for a post of the feed, which the device has read from its own view. So the
interest has its post in front of it in every view that ever holds it, whatever the
interleaving of arrivals, and every record under `Posts` is one that `newPost` wrote.

## Main results

* `postsOf_applyWrites`: a causal sequence of writes leaves posts' records only.
* `SchemaInv.step`: the views of all devices and the server's log stay causal.
* `posts_complete`: nothing a device reads of posts makes a forced cast or unwrap fail.
-/

namespace MDBSocials

/-! ### Dependencies between writes -/

/-- What a write needs in front of it: an interest needs its post. -/
def Write.Needs : Write → List Write → Prop
  | .updateInterested postId key _, pre =>
      integerLike key = false ∧ ∃ post, .newPost postId post ∈ pre
  | _, _ => True

theorem monotoneDep_needs : Replica.MonotoneDep Write.Needs := by
  intro w pre pre' hsub h
  cases w with
  | updateInterested postId key uid =>
      obtain ⟨hkey, post, hpost⟩ := h
      exact ⟨hkey, post, hsub hpost⟩
  | _ => trivial

/-- The post that a write makes, or adds a user to. -/
def Write.post? : Write → Option Key
  | .newPost key _ => some key
  | .createNewUser _ _ => none
  | .updateInterested postId _ _ => some postId

/-- The children of `Posts` are the posts of the writes. -/
theorem mem_children_posts {us : List Write} {key : Key} :
    key ∈ ((applyWrites .empty us).sub ["Posts"]).children ↔ ∃ w ∈ us, w.post? = some key := by
  induction us using List.reverseRecOn with
  | nil => exact iff_of_false (by simp [PathTree.mem_children]) (by simp)
  | append_singleton us w ih =>
      have hpath : ∀ p v, ((applyWrites .empty us).set ("Posts" :: p) v).sub ["Posts"] =
          ((applyWrites .empty us).sub ["Posts"]).set p v :=
        PathTree.sub_set_append _ ["Posts"]
      have hlast : key ∈ ((applyWrites .empty (us ++ [w])).sub ["Posts"]).children ↔
          w.post? = some key ∨ key ∈ ((applyWrites .empty us).sub ["Posts"]).children := by
        rw [applyWrites_snoc]
        cases w with
        | newPost key' post =>
            rw [Write.path, Write.value, hpath,
              PathTree.children_set_cons post.isPost_node.present]
            simp [Write.post?, eq_comm]
        | createNewUser uid user =>
            rw [Write.path, Write.value,
              PathTree.sub_set_of_incomparable (q := ["Posts"]) (by simp) (by simp)]
            simp [Write.post?]
        | updateInterested postId key' uid =>
            rw [Write.path, Write.value, hpath,
              PathTree.children_set_cons (PathTree.present_leaf _)]
            simp [Write.post?, eq_comm]
      rw [hlast, ih]
      simp [or_and_right, exists_or, or_comm]

/-- A post's record is there after its write, whatever came later. -/
theorem mem_children_of_newPost {us : List Write} {key : Key} {post : NewPost}
    (h : .newPost key post ∈ us) :
    key ∈ ((applyWrites .empty us).sub ["Posts"]).children :=
  mem_children_posts.mpr ⟨_, h, rfl⟩

/-- **A causal sequence of writes** leaves nothing but posts' records under `Posts`. -/
theorem postsOf_applyWrites {us : List Write} (h : Replica.CausalFrom Write.Needs [] us) :
    PostsOf (fun key post => .newPost key post ∈ us) (applyWrites .empty us) := by
  induction us using List.reverseRecOn with
  | nil => exact postsOf_empty _
  | append_singleton us w ih =>
      obtain ⟨hcausal, hneeds⟩ := Replica.causalFrom_snoc.mp h
      rw [applyWrites_snoc]
      refine PostsOf.write ?_ ?_
      · exact (ih hcausal).mono fun key post hpost => List.mem_append_left _ hpost
      · cases w with
        | newPost key post => exact List.mem_append_right _ (List.mem_singleton_self _)
        | createNewUser uid user => trivial
        | updateInterested postId key uid =>
            obtain ⟨hkey, post, hpost⟩ := hneeds
            exact ⟨mem_children_of_newPost hpost, hkey⟩

namespace World

variable [Platform] {ι : Type}

/-! ### The calls of newPost -/

/-- The calls of `newPost` have different keys, and every post that was issued is one of
them. -/
structure CreatedInv (w : World ι) : Prop where
  posts : ∀ x ∈ w.created, ∃ key uid, x.2 = .newPost key (x.1.post uid) ∧ key ∈ w.keys
  unique : ∀ x ∈ w.created, ∀ y ∈ w.created, ∀ key p q,
    x.2 = .newPost key p → y.2 = .newPost key q → x = y
  issued : ∀ key post, w.db.Issued (.newPost key post) → ∃ u, (u, .newPost key post) ∈ w.created

/-- The call that issued a post. -/
theorem CreatedInv.exists_call {w : World ι} (h : CreatedInv w) {key : Key} {post : NewPost}
    (hpost : w.db.Issued (.newPost key post)) :
    ∃ u uid, (u, .newPost key (u.post uid)) ∈ w.created ∧ post = u.post uid := by
  obtain ⟨u, hu⟩ := h.issued key post hpost
  obtain ⟨key', uid, hwrite, -⟩ := h.posts _ hu
  have hsame : post = u.post uid := (Write.newPost.inj hwrite).2
  exact ⟨u, uid, hsame ▸ hu, hsame⟩

theorem createdInv_initial : CreatedInv (initial : World ι) where
  posts := nofun
  unique := nofun
  issued key post h := by rcases h with h | ⟨c, h⟩ <;> cases h

variable [DecidableEq ι] {w w' : World ι} {c : ι} {a : ClientAction}

/-- A step that adds to the calls of `newPost`: the completion of an upload, with a fresh
key. -/
theorem Step.created (h : Step w c a w') : w'.created = w.created ∨
    ∃ i key u uid, a = .uploadSucceeds i key ∧ w.FreshKey key ∧
      (w.clients c).uploaded[i]? = some u ∧ (w.app c).currentUser = some uid ∧
      w'.created = (u, .newPost key (u.post uid)) :: w.created ∧ key ∈ w'.keys := by
  cases h with
  | @uploadSucceeds i key u write hkey hu hwrite =>
      obtain ⟨uid, huid, rfl⟩ := Upload.succeeded_eq_ok.mp hwrite
      exact Or.inr ⟨i, key, u, uid, rfl, hkey, hu, huid, rfl, List.mem_cons_self⟩
  | _ => exact Or.inl rfl

theorem Step.created_subset (h : Step w c a w') : w.created ⊆ w'.created := by
  rcases h.created with hsame | ⟨i, key, u, uid, -, -, -, -, hnew, -⟩
  · exact hsame ▸ List.Subset.refl _
  · exact hnew ▸ List.subset_cons_self _ _

/-- A post is issued in a call of `newPost`. -/
theorem Step.issued_newPost (h : Step w c a w') {key : Key} {post : NewPost}
    (hi : w'.db.Issued (.newPost key post)) :
    w.db.Issued (.newPost key post) ∨ ∃ u ∈ (w.clients c).uploaded,
      w'.created = (u, .newPost key post) :: w.created := by
  cases h with
  | tappedInterested hkey hd henabled happ =>
      obtain ⟨postId, uid, -, -, -, rfl, -⟩ := App.tappedInterested_eq_ok happ
      exact Or.inl ((hi.of_step (e := .issue c _) rfl).resolve_right (by simp))
  | @uploadSucceeds i key' u write hkey hu hwrite =>
      rcases hi.of_step (e := .issue c write) rfl with hi | ⟨d, hd⟩
      · exact Or.inl hi
      · obtain ⟨-, rfl⟩ := Replica.Event.issue.inj hd
        exact Or.inr ⟨u, List.mem_of_getElem? hu, rfl⟩
  | signUpSucceeds hu huid =>
      exact Or.inl ((hi.of_step (e := .issue c _) rfl).resolve_right (by simp))
  | arrive hdb => exact Or.inl ((hi.of_step (e := .arrive c) hdb).resolve_right (by simp))
  | reject hdb => exact Or.inl ((hi.of_step (e := .reject c) hdb).resolve_right (by simp))
  | sync hdb => exact Or.inl ((hi.of_step (e := .sync c _) hdb).resolve_right (by simp))
  | terminate | trapped =>
      exact Or.inl ((hi.of_step (e := .crash c) rfl).resolve_right (by simp))
  | _ => exact Or.inl hi

theorem CreatedInv.step (h : CreatedInv w) (hst : Step w c a w') : CreatedInv w' := by
  have hissued : ∀ key post, w'.db.Issued (.newPost key post) →
      ∃ u, (u, .newPost key post) ∈ w'.created := by
    intro key post hi
    rcases hst.issued_newPost hi with hi | hnew
    · obtain ⟨u, hu⟩ := h.issued key post hi
      exact ⟨u, hst.created_subset hu⟩
    · obtain ⟨u, -, hcreated⟩ := hnew
      exact ⟨u, hcreated ▸ List.mem_cons_self⟩
  rcases hst.created with hsame | ⟨i, key, u, uid, -, hfresh, -, -, hnew, hkey⟩
  · refine ⟨fun x hx => ?_, ?_, hissued⟩
    · obtain ⟨key, uid, hx', hkey⟩ := h.posts x (hsame ▸ hx)
      exact ⟨key, uid, hx', hst.keys_subset hkey⟩
    · rw [hsame]
      exact h.unique
  · -- the key of the new call is not that of an old one
    have hold : ∀ x ∈ w.created, ∀ p, x.2 ≠ .newPost key p := by
      intro x hx p hxp
      obtain ⟨key', uid', hx', hkey'⟩ := h.posts x hx
      obtain ⟨rfl, -⟩ := Write.newPost.inj (hxp.symm.trans hx')
      exact hfresh.1 hkey'
    refine ⟨fun x hx => ?_, fun x hx y hy key' p q hxp hyq => ?_, hissued⟩
    · rw [hnew] at hx
      rcases List.mem_cons.mp hx with rfl | hx
      · exact ⟨key, uid, rfl, hkey⟩
      · obtain ⟨key', uid', hx', hkey'⟩ := h.posts x hx
        exact ⟨key', uid', hx', hst.keys_subset hkey'⟩
    · rw [hnew] at hx hy
      rcases List.mem_cons.mp hx with rfl | hx <;> rcases List.mem_cons.mp hy with rfl | hy
      · rfl
      · obtain ⟨rfl, -⟩ := Write.newPost.inj hxp
        exact absurd hyq (hold y hy q)
      · obtain ⟨rfl, -⟩ := Write.newPost.inj hyq
        exact absurd hxp (hold x hx p)
      · exact h.unique x hx y hy key' p q hxp hyq

/-! ### The invariant -/

/-- The server's log and all views are causal, and every application knows of posts only
those in its view. -/
structure SchemaInv (w : World ι) : Prop where
  causal : Replica.Causal Write.Needs w.db
  views : Replica.ViewCausal Write.Needs w.db
  apps : ∀ c, Faithful (fun key post => .newPost key post ∈ w.db.viewSeq c) (w.app c)

theorem schemaInv_initial : SchemaInv (initial : World ι) where
  causal := Replica.causal_empty
  views := Replica.viewCausal_empty
  apps _ := .launch none (postsOf_empty _)

/-- The server refuses no write. -/
def Accepted : ClientAction → Prop
  | .reject => False
  | _ => True

instance (a : ClientAction) : Decidable (Accepted a) := by
  rcases a <;> dsimp only [Accepted] <;> infer_instance

/-- The runs in which no write is refused. -/
def accepted : Machine (World ι) (ι × ClientAction) := machine.restrict fun _ a => Accepted a.2

/-- A device whose writes all arrive. -/
theorem arrive_all (w : World ι) (c : ι) : ∃ as w', accepted.run w as = some w' ∧
    w'.db.serverSeq = w.db.serverSeq ++ w.db.pending c ∧
    ∀ d ≠ c, w'.db.pending d = w.db.pending d := by
  generalize hp : w.db.pending c = us
  induction us generalizing w with
  | nil => exact ⟨[], w, rfl, by simp, fun d _ => rfl⟩
  | cons u us ih =>
      obtain ⟨db, hdb⟩ : ∃ db, w.db.arrive c = some db := by simp [Replica.arrive, hp]
      obtain ⟨u', us', hp', hlog, hpend, -⟩ := Replica.arrive_eq_some hdb
      obtain ⟨rfl, rfl⟩ := List.cons.inj (hp.symm.trans hp')
      obtain ⟨as, w', hrun, hserver, hothers⟩ := ih { w with db } (by simp [hpend])
      have hstep : accepted.step w (c, .arrive) = some { w with db } :=
        Machine.restrict_step.mpr ⟨trivial, by simp [machine, step, perform, hdb]⟩
      refine ⟨(c, .arrive) :: as, w', Machine.run_cons_eq_some.mpr ⟨_, hstep, hrun⟩, ?_,
        fun d hd => ?_⟩
      · rw [hserver]
        simp [Replica.serverSeq, hlog]
      · simp [hothers d hd, hpend, hd]

/-- What a device issues has what it needs in the device's view: an interest is issued
for a post that the device has read. -/
theorem SchemaInv.issuesInView (h : SchemaInv w) (ha : Accepted a) {db : Replica ι Write}
    (hdb : DbStep w c a db) :
    db = w.db ∨ ∃ e, w.db.step e = some db ∧ Replica.IssuesInView Write.Needs w.db e := by
  refine hdb.event_of ?_ (fun _ _ _ _ _ _ => trivial) (fun _ _ => trivial) trivial ?_
    (fun _ => trivial) trivial
  · intro key postId uid d _ hkey hd hid _
    have hthere : d.post < (w.app c).nextRef :=
      (h.apps c).allocated d.post (.ofDetail hd)
    obtain ⟨key', post, hpost, hrec⟩ := (h.apps c).objects d.post hthere
    have hid' : ((w.app c).objects d.post).id = some key' := congrArg Post.id hrec
    obtain rfl := Option.some.inj (hid.symm.trans hid')
    exact ⟨hkey.2, post, hpost⟩
  · rintro rfl
    exact ha.elim

theorem SchemaInv.step (h : SchemaInv w) (ha : Accepted a) (hst : Step w c a w') :
    SchemaInv w' := by
  have hdb : Replica.Causal Write.Needs w'.db ∧ Replica.ViewCausal Write.Needs w'.db := by
    rcases h.issuesInView ha hst.db with hsame | ⟨e, he, hissues⟩
    · rw [hsame]
      exact ⟨h.causal, h.views⟩
    · exact ⟨h.causal.step monotoneDep_needs (hissues.issuesAfter monotoneDep_needs) he,
        h.views.step monotoneDep_needs h.causal hissues he⟩
  refine ⟨hdb.1, hdb.2, fun d => ?_⟩
  have hposts : PostsOf (fun key post => .newPost key post ∈ w'.db.viewSeq d)
      (w'.localView d) := postsOf_applyWrites (hdb.2 d)
  by_cases hd : d = c
  · subst hd
    rcases hst.app with ⟨-, u, hlaunch⟩ | ⟨⟨as, hrun, hviews⟩, hgrows⟩
    · exact hlaunch ▸ .launch u hposts
    · have hsub : w.db.viewSeq d ⊆ w'.db.viewSeq d := by
        rcases hgrows with ⟨db, rfl, -⟩ | hsub
        · exact ha.elim
        · exact hsub
      have hstart := (h.apps d).mono fun key post hpost => hsub hpost
      exact hstart.run (fun view hview => hviews view hview ▸ hposts) hrun
  · rw [hst.db.viewSeq_of_ne hd, World.app, hst.clients_of_ne hd]
    exact h.apps d

/-- After every run without refusals, both invariants hold. -/
theorem invariants_of_run {as : List (ι × ClientAction)}
    (hrun : accepted.run initial as = some w) : SchemaInv w ∧ CreatedInv w := by
  refine Machine.run_invariant (M := accepted) (I := fun w => SchemaInv w ∧ CreatedInv w)
    (fun w a w' hw hst => ?_) ⟨schemaInv_initial, createdInv_initial⟩ hrun
  obtain ⟨ha, hst⟩ := Machine.restrict_step.mp hst
  exact ⟨hw.1.step ha (step_cases hst), hw.2.step (step_cases hst)⟩

end World

/-! ### What it means for the handlers -/

namespace App

theorem loadPosterName_ok {s : App} {r : PostRef} {posterId : Uid}
    (hposter : (s.objects r).posterId = some posterId) (cell : CellRef) :
    ∃ t, s.loadPosterName r cell = .ok t := by
  rw [loadPosterName]
  split
  · exact ⟨_, bind_eq_ok.mpr ⟨posterId, forceUnwrap_eq_ok.mpr hposter, rfl⟩⟩
  · exact ⟨_, rfl⟩

theorem loadInterested_ok {s : App} {r : PostRef} {postId : Key}
    (hid : (s.objects r).id = some postId) (cell : CellRef) :
    ∃ t, s.loadInterested r cell = .ok t :=
  ⟨_, bind_eq_ok.mpr ⟨postId, forceUnwrap_eq_ok.mpr hid, rfl⟩⟩

/-- A tap on the button of a post with an id can only fail for want of a session. -/
theorem tappedInterested_error {s : App} {d : DetailViewController} {key : Key}
    {trap : Trap} {postId : Key} (hid : (s.objects d.post).id = some postId)
    (h : s.tappedInterested d key = .error trap) :
    trap = .forcedUnwrap "(getCurrentUser()?.uid)!" := by
  rw [tappedInterested] at h
  rw [hid] at h
  cases huser : s.currentUser with
  | none =>
      rw [huser] at h
      exact (Except.error.inj h).symm
  | some uid =>
      rw [huser] at h
      cases h

section Handlers

variable [Platform]

theorem loadPicture_ok {s : App} {r : PostRef} {url : String} {ref : StoragePath}
    (hurl : (s.objects r).imageUrl = some url) (href : Platform.referenceForURL url = some ref)
    (cell : CellRef) : ∃ t, s.loadPicture r cell = .ok t := by
  rw [loadPicture]
  split
  · refine ⟨{ s with pictureRequests := s.pictureRequests ++ [⟨cell, r, ref⟩] }, ?_⟩
    refine bind_eq_ok.mpr ⟨url, forceUnwrap_eq_ok.mpr hurl, ?_⟩
    rw [href]
    rfl
  · exact ⟨_, rfl⟩

/-- A row whose post has a valid URL, an author and an id is rendered. -/
theorem cellForRowAt_ok {s : App} {row : ℕ} {r : PostRef} (cell : CellRef)
    (hr : s.feed.posts[row]? = some r) {url : String} {ref : StoragePath}
    (hurl : (s.objects r).imageUrl = some url) (href : Platform.referenceForURL url = some ref)
    {posterId : Uid} (hposter : (s.objects r).posterId = some posterId)
    {postId : Key} (hid : (s.objects r).id = some postId) :
    ∃ t, s.cellForRowAt row cell = .ok t := by
  obtain ⟨s₁, h₁⟩ : ∃ t, (s.awakeCell r cell).loadPicture r cell = .ok t :=
    loadPicture_ok (s := s.awakeCell r cell) hurl href cell
  have hobj₁ : s₁.objects = (s.awakeCell r cell).objects := loadPicture_objects h₁
  set s₂ := s₁.modifyCell cell fun c => { c with eventNameLabel := (s₁.objects r).eventName }
  have hobj₂ : s₂.objects = s.objects := hobj₁
  obtain ⟨s₃, h₃⟩ := loadPosterName_ok (s := s₂) (hobj₂ ▸ hposter) cell
  have hobj₃ : s₃.objects = s.objects := (loadPosterName_objects h₃).trans hobj₂
  obtain ⟨t, ht⟩ := loadInterested_ok (s := s₃) (hobj₃ ▸ hid) cell
  refine ⟨t, ?_⟩
  simp only [cellForRowAt, hr]
  exact bind_eq_ok.mpr ⟨s₁, h₁, bind_eq_ok.mpr ⟨s₃, h₃, ht⟩⟩

/-- A detail screen whose post has a title can only fail for want of the poster's name. -/
theorem detailWillAppear_error {s : App} {d : DetailViewController} {trap : Trap}
    {title : String} (htitle : (s.objects d.post).eventName = some title)
    (h : s.detailWillAppear d = .error trap) : trap = .forcedUnwrap "post.posterName!" := by
  cases hname : (s.objects d.post).posterName with
  | none => exact Except.error.inj (h.symm.trans (detailWillAppear_unnamed htitle hname))
  | some posterName =>
      rw [detailWillAppear_eq_ok.mpr ⟨title, posterName, htitle, hname, rfl⟩] at h
      cases h

end Handlers

end App

namespace World

variable [Platform] {ι : Type} [DecidableEq ι]

/-- Every post that a device is handed or holds is as `newPost` wrote it, and no forced
cast or unwrap about a post's record fails. -/
structure PostsComplete (w : World ι) (c : ι) : Prop where
  /-- The posts of the events queued for the feed. -/
  handed : ∀ o ∈ (w.app c).observers, ∀ snap ∈ o.queue, ∃ u uid p,
    (u, .newPost snap.key (u.post uid)) ∈ w.created ∧ fetchedPost snap = .ok p ∧
      p.record = (u.post uid).record snap.key
  /-- The posts of the feed, its cells, requests and detail screen. -/
  held : ∀ r, (w.app c).Holds r → ∃ u uid key,
    (u, .newPost key (u.post uid)) ∈ w.created ∧
      ((w.app c).objects r).record = (u.post uid).record key
  rendered : ∀ row < (w.app c).feed.posts.length, ∀ cell,
    ∃ app, (w.app c).cellForRowAt row cell = .ok app
  opened : ∀ d, (w.app c).detail = some d → ∀ trap,
    (w.app c).detailWillAppear d = .error trap → trap = .forcedUnwrap "post.posterName!"
  tapped : ∀ d, (w.app c).detail = some d → ∀ key trap,
    (w.app c).tappedInterested d key = .error trap →
      trap = .forcedUnwrap "(getCurrentUser()?.uid)!"

/-- **Post schema.** In every run of any number of devices in which no write is refused,
every post that any device is handed, or holds, has all the fields that one call of
`newPost` wrote for its key, and no forced cast or unwrap of them fails. -/
theorem posts_complete {as : List (ι × ClientAction)} {w : World ι}
    (hrun : accepted.run initial as = some w) (c : ι) :
    PostsComplete w c ∧ ∀ x ∈ w.created, ∀ y ∈ w.created, ∀ key p q,
      x.2 = .newPost key p → y.2 = .newPost key q → x = y := by
  obtain ⟨hschema, hcreated⟩ := invariants_of_run hrun
  have hfaith := hschema.apps c
  have hcall : ∀ key post, .newPost key post ∈ w.db.viewSeq c →
      ∃ u uid, (u, .newPost key (u.post uid)) ∈ w.created ∧ post = u.post uid :=
    fun key post hpost => hcreated.exists_call (Replica.issued_of_mem_viewSeq hpost)
  have hheld : ∀ r, (w.app c).Holds r → ∃ u uid key,
      (u, .newPost key (u.post uid)) ∈ w.created ∧
        ((w.app c).objects r).record = (u.post uid).record key := by
    intro r hr
    obtain ⟨key, post, hpost, hrec⟩ := hfaith.objects r (hfaith.allocated r hr)
    obtain ⟨u, uid, hu, rfl⟩ := hcall key post hpost
    exact ⟨u, uid, key, hu, hrec⟩
  have hdetail : ∀ d, (w.app c).detail = some d → (w.app c).Holds d.post := fun _ => .ofDetail
  refine ⟨⟨?_, hheld, ?_, ?_, ?_⟩, hcreated.unique⟩
  · intro o ho snap hsnap
    obtain ⟨post, p, hpost, hp, hrec⟩ := hfaith.fetchedPost ho hsnap
    obtain ⟨u, uid, hu, rfl⟩ := hcall snap.key post hpost
    exact ⟨u, uid, p, hu, hp, hrec⟩
  · intro row hrow cell
    have hr : (w.app c).feed.posts[row]? = some (w.app c).feed.posts[row] :=
      List.getElem?_eq_getElem hrow
    obtain ⟨u, uid, key, -, hrec⟩ := hheld _ (Or.inl (List.getElem_mem hrow))
    exact App.cellForRowAt_ok cell hr (congrArg Post.imageUrl hrec)
      (Platform.referenceForURL_downloadURL u.imageRef) (congrArg Post.posterId hrec)
      (congrArg Post.id hrec)
  · intro d hd trap htrap
    obtain ⟨u, uid, key, -, hrec⟩ := hheld d.post (hdetail d hd)
    exact App.detailWillAppear_error (congrArg Post.eventName hrec) htrap
  · intro d hd key trap htrap
    obtain ⟨u, uid, key', -, hrec⟩ := hheld d.post (hdetail d hd)
    exact App.tappedInterested_error (congrArg Post.id hrec) htrap

end World

/-! ### A first post -/

namespace World

attribute [local instance] Platform.reference

/-- Ann signs up and her feed appears. -/
def annSignsUp : List (ℕ × ClientAction) :=
  [(0, .signUp ⟨"Ann", "ann1", "ann@x.org"⟩), (0, .accountCreated 0 "ann"),
    (0, .signUpSucceeds 0), (0, .feed .viewWillAppear)]

/-- Ann posts an event with a picture. -/
def annPosts : List (ℕ × ClientAction) :=
  [(0, .newPostWithImage ⟨⟨[1]⟩, "Party", "at nine", "Feb 21, 9:00 PM"⟩),
    (0, .pictureStored 0), (0, .uploadSucceeds 0 "-L0")]

/-- On a device whose feed has one post, the post is opened once its poster's name is
there, and the interested button is tapped. -/
def tapsInterested (device : ℕ) (key : Key) : List (ℕ × ClientAction) :=
  [(device, .feed (.deliver 0)), (device, .feed (.cellForRowAt 0 0)),
    (device, .feed (.userReply ⟨0, 0, "ann"⟩ true)), (device, .feed (.didSelectRowAt 0)),
    (device, .feed .detailWillAppear), (device, .tappedInterested key)]

/-- Ann signs in on a second device, where her feed appears. -/
def annSignsIn : List (ℕ × ClientAction) :=
  [(1, .feed (.tappedLogin "ann")), (1, .feed (.signInReply "ann" true)), (1, .sync 2),
    (1, .feed .viewWillAppear)]

theorem posts_complete_first_post :
    ∃ w : World ℕ, accepted.run initial (annSignsUp ++ annPosts ++ [(0, .feed (.deliver 0))]) =
      some w ∧ (w.app 0).postIds = [some "-L0"] ∧ PostsComplete w 0 := by
  have hrun : (accepted.run (initial : World ℕ)
      (annSignsUp ++ annPosts ++ [(0, .feed (.deliver 0))])).map (fun w => (w.app 0).postIds) =
      some [some "-L0"] := by decide
  obtain ⟨w, hw, hids⟩ := Option.map_eq_some_iff.mp hrun
  exact ⟨w, hw, hids, (posts_complete hw 0).1⟩

end World

end MDBSocials
