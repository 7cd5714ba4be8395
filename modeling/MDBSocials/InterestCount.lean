import MDBSocials.InterestOnce

/-!
# The Number of Interested Users

Two paths lead to the users interested in a post. A row of the feed reads them from the
device's view of the database each time it is rendered. The detail screen shows the ids that
the `Post` object was decoded with, and those of the taps on it since.

A history variable notes for each object the interests it knows: those in the snapshot it
was decoded from, and those of its own taps. They are among the interests in the device's
view, which may hold more: those of other devices and users, and of taps on another object
for the post.

## Main results

* `mem_interestEntries`: the entries of a post in a view are the interests in it.
* `Knows.step` and `Knows.tap`: what an object has is what it knows, through every action.
* `detail_agrees_iff`: the detail screen agrees with the view when it appears exactly when
  the object knows all interests in it.
* `detail_disagrees`: Ann taps on another device.
-/

namespace MDBSocials

open scoped List

/-! ### The entries of a post -/

/-- The keys of a node with the user ids stored under them. -/
def interestEntries (t : Node) : List (Key × Uid) :=
  t.childKeys.filterMap fun k => (userIdAt t k).map fun uid => (k, uid)

theorem map_snd_interestEntries (t : Node) : (interestEntries t).map Prod.snd = userIds t := by
  rw [interestEntries, userIds, List.map_filterMap]
  simp [Function.comp_def]

theorem keys_interestEntries_nodup (t : Node) : ((interestEntries t).map Prod.fst).Nodup := by
  have hsub := Replica.map_filterMap_sublist (f := fun k =>
    (userIdAt t k).map fun uid => (k, uid)) (g := Prod.fst) (h := some)
    (fun k e he => by
      obtain ⟨uid, -, rfl⟩ := Option.map_eq_some_iff.mp he
      rfl) t.childKeys
  rw [List.filterMap_some] at hsub
  exact (PathTree.nodup_childKeys t).sublist hsub

/-- **The entries of a post** after a sequence of writes are the interests among them. -/
theorem mem_interestEntries {us : List Write} (h : Replica.CausalFrom Write.Needs [] us)
    (hkeys : (us.filterMap Write.autoKey).Nodup) {postId : Key} {e : Key × Uid} :
    e ∈ interestEntries ((applyWrites .empty us).sub ["Posts", postId, "Interested"]) ↔
      .updateInterested postId e.1 e.2 ∈ us := by
  have hadded : Added .empty (interestsIn postId us)
      ((applyWrites .empty us).sub ["Posts", postId, "Interested"]) := by
    rw [sub_interested_applyWrites (respects_of_causal h hkeys), oldInterests_empty]
    exact added_addInterests (hkeys.sublist (keys_interestsIn_sublist postId us)) (by simp)
  have hmem : ∀ e, e ∈ interestsIn postId us ↔ .updateInterested postId e.1 e.2 ∈ us := by
    intro e
    simp [interestsIn, List.mem_filterMap, Write.interestIn_eq_some]
  set t := (applyWrites .empty us).sub ["Posts", postId, "Interested"]
  rw [← hmem, interestEntries, List.mem_filterMap]
  constructor
  · rintro ⟨k, hk, he⟩
    obtain ⟨uid, huid, rfl⟩ := Option.map_eq_some_iff.mp he
    obtain ⟨uid', he'⟩ : ∃ uid', (k, uid') ∈ interestsIn postId us := by
      simpa using hadded.keys.subset hk
    rw [userIdAt_of_sub (hadded.added _ he')] at huid
    obtain rfl := Option.some.inj huid
    exact he'
  · intro he
    refine ⟨e.1, hadded.keys.symm.subset ?_, ?_⟩
    · simpa using ⟨e.2, he⟩
    · rw [userIdAt_of_sub (hadded.added e he)]
      rfl

/-! ### What an object knows -/

namespace App

/-- What a delivery notes: the interests in the snapshot that the new object is decoded
from. -/
def noteDelivery (s : App) (i : ℕ) (known : PostRef → List (Key × Uid)) :
    PostRef → List (Key × Uid) :=
  match s.takeEvent i with
  | some (snap, _) =>
      Function.update known s.nextRef (interestEntries (snap.node.sub ["Interested"]))
  | none => known

/-- What a tap on the interested button notes: the user's interest, under its key. -/
def noteTap (s : App) (key : Key) (known : PostRef → List (Key × Uid)) :
    PostRef → List (Key × Uid) :=
  match s.detail, s.currentUser with
  | some d, some uid => Function.update known d.post (known d.post ++ [(key, uid)])
  | _, _ => known

end App

/-- The users that an object has are those of the interests it knows, and these are
interests in its post, as are those in the events queued for the feed. -/
structure Knows (fits : Key → Key × Uid → Prop) (known : PostRef → List (Key × Uid))
    (s : App) : Prop where
  objects : ∀ r < s.nextRef, ∃ postId, (s.objects r).id = some postId ∧
    (s.objects r).interestedIds ~ (known r).map Prod.snd ∧
    ((known r).map Prod.fst).Nodup ∧ ∀ e ∈ known r, fits postId e
  queued : ∀ o ∈ s.observers, ∀ snap ∈ o.queue,
    ∀ e ∈ interestEntries (snap.node.sub ["Interested"]), fits snap.key e

/-- The entries of the posts in a view are interests in them. -/
def EntriesFit (fits : Key → Key × Uid → Prop) (view : Node) : Prop :=
  ∀ postId, ∀ e ∈ interestEntries (view.sub ["Posts", postId, "Interested"]), fits postId e

namespace App

/-- Only a tap on the interested button, and the decoding of a new object, touch the users
that objects have. -/
theorem step_interestedIds [Platform] {s t : App} {a : Action} (h : s.step a = some t)
    (hdeliver : ∀ i, a ≠ .deliver i) (htap : ∀ key, a ≠ .tappedInterested key) (r : PostRef) :
    (t.objects r).interestedIds = (s.objects r).interestedIds := by
  by_cases hwrites : a.writesObjects
  · have h' := step_eq_some.mp h
    cases a with
    | deliver i => exact absurd rfl (hdeliver i)
    | tappedInterested key => exact absurd rfl (htap key)
    | pictureReply q data =>
        cases data with
        | none => cases hwrites
        | some data =>
            obtain ⟨-, h'⟩ := Option.ite_none_right_eq_some.mp h'
            obtain rfl := Except.ok.inj (Option.some.inj h')
            rw [pictureReply_some]
            by_cases hr : r = q.post
            · simp [hr]
            · simp [hr]
    | userReply q node =>
        cases node with
        | none => cases hwrites
        | some node =>
            obtain ⟨-, h'⟩ := Option.ite_none_right_eq_some.mp h'
            obtain ⟨user, name, -, -, rfl⟩ := userReply_some_eq_ok.mp (Option.some.inj h')
            by_cases hr : r = q.post
            · simp [hr]
            · simp [hr]
    | _ => cases hwrites
  · rw [step_objects (Bool.not_eq_true _ ▸ hwrites) h]

/-- **The detail screen** shows what the object has. -/
theorem detailWillAppear_shows [Platform] {s t : App} {d : DetailViewController}
    (h : s.detailWillAppear d = .ok t) :
    t.objects = s.objects ∧ t.currentUser = s.currentUser ∧
    ∃ d', t.detail = some d' ∧ d'.post = d.post ∧
      d'.interestedLabel = some (membersInterestedText (s.objects d.post).interestedIds.length) ∧
      (d'.interestedButtonEnabled = false ↔
        ∃ uid ∈ (s.objects d.post).interestedIds, s.currentUser = some uid) := by
  obtain ⟨title, posterName, -, -, rfl⟩ := detailWillAppear_eq_ok.mp h
  refine ⟨rfl, rfl, _, rfl, setInterestedButtonState_post s _, rfl, ?_⟩
  have hsaid : ((s.objects d.post).interestedIds.any (some · = s.currentUser)) = true ↔
      ∃ uid ∈ (s.objects d.post).interestedIds, s.currentUser = some uid := by
    simp [@eq_comm _ s.currentUser]
  rw [← hsaid]
  cases hany : (s.objects d.post).interestedIds.any (some · = s.currentUser) with
  | true => simp [setInterestedButtonState, hany]
  | false => simp [setInterestedButtonState, hany]

end App

namespace Knows

open App

variable {fits : Key → Key × Uid → Prop} {known : PostRef → List (Key × Uid)} {s t : App}

theorem launch (u : Option Uid) (view : Node) : Knows fits known (App.launch u view) :=
  ⟨nofun, nofun⟩

theorem mono {fits' : Key → Key × Uid → Prop} (h : Knows fits known s)
    (hsub : ∀ postId e, fits postId e → fits' postId e) : Knows fits' known s where
  objects r hr := by
    obtain ⟨postId, hid, hperm, hnodup, hfits⟩ := h.objects r hr
    exact ⟨postId, hid, hperm, hnodup, fun e he => hsub postId e (hfits e he)⟩
  queued o ho snap hsnap e he := hsub snap.key e (h.queued o ho snap hsnap e he)

/-- What leaves the feed and the objects' users alone. -/
theorem of_kept (h : Knows fits known s) (hkept : KeptFeed s t)
    (hinterested : ∀ r, (t.objects r).interestedIds = (s.objects r).interestedIds) :
    Knows fits known t where
  objects r hr := by
    have hid : (t.objects r).id = (s.objects r).id := (congrArg Post.id (hkept.records r) :)
    rw [hid, hinterested r]
    exact h.objects r (hkept.nextRef ▸ hr)
  queued o ho := h.queued o (hkept.observers_subset ho)

/-- The snapshots of posts have the entries of the posts in the view. -/
theorem entries_childSnapshots {view : Node} (hview : EntriesFit fits view)
    {snap : DataSnapshot} (hsnap : snap ∈ childSnapshots view ["Posts"]) :
    ∀ e ∈ interestEntries (snap.node.sub ["Interested"]), fits snap.key e := by
  obtain ⟨-, hnode⟩ := mem_childSnapshots.mp hsnap
  have hbelow : snap.node.sub ["Interested"] = view.sub ["Posts", snap.key, "Interested"] := by
    rw [hnode]
    exact PathTree.sub_sub view ["Posts", snap.key] ["Interested"]
  rw [hbelow]
  exact hview snap.key

theorem viewChanged (h : Knows fits known s) (hs : FeedInv s) {view : Node}
    (hview : EntriesFit fits view) : Knows fits known (s.viewChanged view) where
  objects := h.objects
  queued o ho snap hsnap := by
    obtain ⟨o', ho', rfl⟩ := List.mem_map.mp ho
    rcases List.mem_append.mp hsnap with hsnap | hsnap
    · exact h.queued o' ho' snap hsnap
    · rw [hs.locations o' ho'] at hsnap
      exact entries_childSnapshots hview (List.mem_of_mem_filter hsnap)

/-- A tap is noted with the object it is on. -/
theorem tap (h : Knows fits known s) {d : DetailViewController} {key : Key} {write : Write}
    (hd : s.detail = some d) (ht : s.tappedInterested d key = .ok (write, t))
    (hfits : ∀ postId userId, (s.objects d.post).id = some postId →
      s.currentUser = some userId → fits postId (key, userId))
    (hnew : key ∉ (known d.post).map Prod.fst) : Knows fits (s.noteTap key known) t := by
  obtain ⟨postId, userId, count, hid, huser, -, rfl⟩ := tappedInterested_eq_ok ht
  have hnote : s.noteTap key known =
      Function.update known d.post (known d.post ++ [(key, userId)]) := by
    simp [noteTap, hd, huser]
  refine ⟨fun r hr => ?_, h.queued⟩
  rw [hnote]
  by_cases hrd : r = d.post
  · subst hrd
    obtain ⟨postId', hid', hperm, hnodup, hold⟩ := h.objects d.post hr
    obtain rfl := Option.some.inj (hid.symm.trans hid')
    simp only [Function.update_self, appendInterested, modifyPost]
    refine ⟨postId, hid, ?_, ?_, fun e he => ?_⟩
    · rw [List.map_append, List.map_singleton]
      exact hperm.append_right _
    · rw [List.map_append, List.map_singleton]
      exact List.concat_eq_append ▸ hnodup.concat hnew
    · rcases List.mem_append.mp he with he | he
      · exact hold e he
      · exact List.mem_singleton.mp he ▸ hfits postId userId hid huser
  · simp only [appendInterested, modifyPost, Function.update_of_ne hrd]
    exact h.objects r hr

variable [Platform]

/-- A delivery is noted with the object it makes. -/
theorem deliver (h : Knows fits known s) {issued : Key → NewPost → Prop}
    (hs : Faithful issued s) {i : ℕ} {o : Observer} {snap : DataSnapshot}
    {queue : List DataSnapshot} {post : Post} (hd : Delivered s i o snap queue post t) :
    Knows fits (s.noteDelivery i known) t := by
  have ho : o ∈ s.observers := List.mem_of_getElem? hd.observer
  have hsnap : snap ∈ o.queue := hd.next ▸ List.mem_cons_self
  have hnote : s.noteDelivery i known =
      Function.update known s.nextRef (interestEntries (snap.node.sub ["Interested"])) := by
    obtain ⟨location, rest⟩ := o
    obtain rfl : rest = snap :: queue := hd.next
    simp [noteDelivery, takeEvent, hd.observer]
  constructor
  · intro r hr
    rw [hd.nextRef] at hr
    rw [hd.objects, hnote]
    rcases Nat.lt_succ_iff_lt_or_eq.mp hr with hr | rfl
    · rw [Function.update_of_ne (Nat.ne_of_lt hr), Function.update_of_ne (Nat.ne_of_lt hr)]
      exact h.objects r hr
    · rw [Function.update_self, Function.update_self, map_snd_interestEntries]
      obtain ⟨new, -, hrec⟩ := hs.queued o ho snap hsnap
      obtain ⟨p, hp, -, -, -, hperm⟩ := hrec.fetchedPost
      obtain rfl := Except.ok.inj (hd.decoded.symm.trans hp)
      exact ⟨snap.key, fetchedPost_id hd.decoded, hperm, keys_interestEntries_nodup _,
        h.queued o ho snap hsnap⟩
  · intro o' ho' snap' hsnap'
    rw [hd.observers] at ho'
    rcases List.mem_or_eq_of_mem_set ho' with ho' | rfl
    · exact h.queued o' ho' snap' hsnap'
    · exact h.queued o ho snap' (hd.next ▸ List.mem_cons_of_mem _ hsnap')

/-- The other actions note nothing. -/
theorem step (h : Knows fits known s) (hs : FeedInv s) (hview : EntriesFit fits s.view)
    {a : Action} (hst : s.step a = some t) (hdeliver : ∀ i, a ≠ .deliver i)
    (htap : ∀ key, a ≠ .tappedInterested key) (hnew : ∀ view, a ≠ .viewChanged view) :
    Knows fits known t := by
  have hinterested := step_interestedIds hst hdeliver htap
  cases step_feed hst with
  | subscribes hsub =>
      rw [viewWillAppear_subscribing hs hsub]
      refine ⟨h.objects, fun o ho snap hsnap => ?_⟩
      rcases List.mem_append.mp ho with ho | ho
      · exact h.queued o ho snap hsnap
      · obtain rfl := List.mem_singleton.mp ho
        exact entries_childSnapshots hview hsnap
  | viewChanged view => exact absurd rfl (hnew view)
  | @deliver i => exact absurd rfl (hdeliver i)
  | kept _ _ _ hkept => exact h.of_kept hkept hinterested

end Knows

/-! ### What the objects of all devices know -/

namespace World

variable [Platform] {ι : Type} [DecidableEq ι]

/-- What a step of the system notes: the deliveries and taps of a device. -/
def noteInterests (w : World ι) (a : ι × ClientAction) (_ : World ι)
    (known : ι → PostRef → List (Key × Uid)) : ι → PostRef → List (Key × Uid) :=
  match a with
  | (c, .feed (.deliver i)) => Function.update known c ((w.app c).noteDelivery i (known c))
  | (c, .tappedInterested key) => Function.update known c ((w.app c).noteTap key (known c))
  | _ => known

/-- An interest in the view of a device. -/
def InView (w : World ι) (c : ι) (postId : Key) (e : Key × Uid) : Prop :=
  .updateInterested postId e.1 e.2 ∈ w.db.viewSeq c

/-- On every device the objects know interests in the device's view. -/
def KnownInv (w : World ι) (known : ι → PostRef → List (Key × Uid)) : Prop :=
  ∀ c, Knows (w.InView c) (known c) (w.app c)

variable {w w' : World ι} {known : ι → PostRef → List (Key × Uid)} {c : ι} {a : ClientAction}

theorem keys_view_nodup (hkeys : KeysInv w) (c : ι) :
    ((w.db.viewSeq c).filterMap Write.autoKey).Nodup :=
  (hkeys.different.queue c).sublist ((w.db.viewSeq_sublist c).filterMap _)

theorem entriesFit_localView (hschema : SchemaInv w) (hkeys : KeysInv w) (c : ι) :
    EntriesFit (w.InView c) (w.localView c) := fun _ _ he =>
  (mem_interestEntries (hschema.views c) (keys_view_nodup hkeys c)).mp he

/-- A device that is shown its new view. -/
theorem knows_refresh {w₁ : World ι} (hw : SchemaInv (w₁.refresh c))
    (hkeys : KeysInv (w₁.refresh c)) {app : App} (happ : w₁.app c = app) (hfeed : app.FeedInv)
    {known : PostRef → List (Key × Uid)} (h : Knows (w₁.InView c) known app) :
    Knows ((w₁.refresh c).InView c) known ((w₁.refresh c).app c) := by
  rw [app_refresh_self, happ]
  exact h.viewChanged hfeed (entriesFit_localView hw hkeys c)

/-- A delivery or tap of one device notes nothing for another. -/
theorem noteInterests_of_ne {d : ι} (hd : d ≠ c) :
    w.noteInterests (c, a) w' known d = known d := by
  cases a with
  | feed b =>
      cases b with
      | deliver i => exact Function.update_of_ne hd _ _
      | _ => rfl
  | tappedInterested key => exact Function.update_of_ne hd _ _
  | _ => rfl

/-- A step of the feed is a delivery, which is noted, or one of the actions that note
nothing. -/
theorem KnownInv.feed (h : KnownInv w known) (hschema : SchemaInv w) (hkeys : KeysInv w)
    (hcoherent : Coherent w) {b : FeedAction} {a' : Action} {app : App}
    (hinput : w.input c b = some a') (happ : (w.app c).step a' = some app) :
    Knows (w.InView c) (w.noteInterests (c, .feed b) w' known c) app := by
  have hview : EntriesFit (w.InView c) (w.app c).view :=
    hcoherent c ▸ entriesFit_localView hschema hkeys c
  have hother : (∀ i, a' ≠ .deliver i) → (∀ key, a' ≠ .tappedInterested key) →
      Knows (w.InView c) (known c) app := fun hdeliver htap =>
    (h c).step (hschema.apps c).toFeedInv hview happ hdeliver htap (input_ne_viewChanged hinput)
  cases b with
  | deliver i =>
      obtain rfl := Option.some.inj hinput
      obtain ⟨o, snap, queue, post, hd⟩ := App.step_deliver happ
      rw [noteInterests, Function.update_self]
      exact (h c).deliver (hschema.apps c) hd
  | signInReply uid succeeded =>
      obtain ⟨-, hinput⟩ := Option.ite_none_right_eq_some.mp hinput
      obtain rfl := Option.some.inj hinput
      exact hother nofun nofun
  | _ =>
      obtain rfl := Option.some.inj hinput
      exact hother nofun nofun

/-- A tap is noted, and its interest is in the view at once. -/
theorem KnownInv.tap (h : KnownInv w known) (hschema : SchemaInv w) (hkeys : KeysInv w)
    {key : Key} {d : DetailViewController} {write : Write} {app : App} (hkey : w.FreshKey key)
    (hd : (w.app c).detail = some d)
    (happ : (w.app c).tappedInterested d key = .ok (write, app))
    (hview : w'.db.viewSeq c = w.db.viewSeq c ++ [write]) :
    Knows (w'.InView c) (w.noteInterests (c, .tappedInterested key) w' known c) app := by
  obtain ⟨postId, userId, -, hid, huser, rfl, -⟩ := App.tappedInterested_eq_ok happ
  have hthere : d.post < (w.app c).nextRef :=
    (hschema.apps c).allocated d.post (.ofDetail hd)
  obtain ⟨postId', -, -, -, hfits⟩ := (h c).objects d.post hthere
  have hnew : key ∉ (known c d.post).map Prod.fst := by
    intro hmem
    obtain ⟨e, he, rfl⟩ := List.mem_map.mp hmem
    exact hkey.1 (hkeys.made _ (Replica.issued_of_mem_viewSeq (hfits e he)) e.1 rfl)
  rw [noteInterests, Function.update_self]
  have hgrows : ∀ postId e, w.InView c postId e → w'.InView c postId e := fun postId e he => by
    rw [InView, hview]
    exact List.mem_append_left _ he
  refine ((h c).mono hgrows).tap hd happ (fun postId'' userId' hid' huser' => ?_) hnew
  obtain rfl := Option.some.inj (hid.symm.trans hid')
  obtain rfl := Option.some.inj (huser.symm.trans huser')
  rw [InView, hview]
  exact List.mem_append_right _ (List.mem_singleton_self _)

/-- **One step** of the system keeps what the objects know in the views. -/
theorem KnownInv.step (h : KnownInv w known) (hschema : SchemaInv w) (hkeys : KeysInv w)
    (hcoherent : Coherent w) (ha : Accepted a) (hst : w.step (c, a) = some w') :
    KnownInv w' (w.noteInterests (c, a) w' known) := by
  have hcases := step_cases hst
  have hschema' := hschema.step ha hcases
  have hkeys' := hkeys.step hst
  have hfeed : ∀ d, (w.app d).FeedInv := fun d => (hschema.apps d).toFeedInv
  have hold : w.db.viewSeq c ⊆ w'.db.viewSeq c → Knows (w'.InView c) (known c) (w.app c) :=
    fun hgrows => (h c).mono fun _ _ he => hgrows he
  intro d
  by_cases hd : d = c
  · subst hd
    cases hcases with
    | @feed b a' app hinput happ =>
        have happ' : (w.setApp d app).app d = app := by simp [setApp]
        rw [happ']
        exact h.feed hschema hkeys hcoherent hinput happ
    | @tappedInterested key det write app hkey hdet henabled happ =>
        have hstep := App.step_of_tap hdet henabled happ
        exact knows_refresh hschema' hkeys' (by simp [setApp, World.app]) ((hfeed d).step hstep)
          (h.tap hschema hkeys hkey hdet happ (Replica.viewSeq_issue_self _ d write))
    | uploadSucceeds | signUpSucceeds =>
        exact knows_refresh hschema' hkeys' (by simp [World.app]) (hfeed d)
          (hold (grows_issue _ rfl _))
    | sync hdb =>
        exact knows_refresh hschema' hkeys' rfl (hfeed d) (hold (Replica.viewSeq_subset_sync hdb))
    | reject => exact ha.elim
    | arrive hdb => exact hold (by simp [Replica.viewSeq_arrive hdb])
    | accountCreated =>
        rw [app_modify_self]
        exact ⟨(h d).objects, (h d).queued⟩
    | terminate | trapped =>
        simp only [World.trapped, World.terminate, app_modify_self]
        exact .launch _ _
    | _ =>
        rw [app_modify_self]
        exact h d
  · rw [noteInterests_of_ne hd, World.app, hcases.clients_of_ne hd]
    refine (h d).mono fun postId e he => ?_
    rw [InView, hcases.db.viewSeq_of_ne hd]
    exact he

/-- After every run without refusals, the objects know interests in the views. -/
theorem knownInv_of_run {as : List (ι × ClientAction)}
    (hrun : (accepted.withHistory noteInterests).run (initial, fun _ _ => []) as =
      some (w, known)) : SchemaInv w ∧ KeysInv w ∧ KnownInv w known := by
  have hinv := Machine.run_invariant (M := accepted.withHistory noteInterests)
    (I := fun x : World ι × (ι → PostRef → List (Key × Uid)) =>
      SchemaInv x.1 ∧ KeysInv x.1 ∧ Coherent x.1 ∧ KnownInv x.1 x.2)
    (fun x a y hx hst => by
      obtain ⟨hschema, hkeys, hcoherent, hknown⟩ := hx
      obtain ⟨hst, hnote⟩ := Machine.withHistory_step.mp hst
      obtain ⟨ha, hst⟩ := Machine.restrict_step.mp hst
      exact ⟨hschema.step ha (step_cases hst), hkeys.step hst, (step_cases hst).coherent hcoherent,
        hnote ▸ hknown.step hschema hkeys hcoherent ha hst⟩)
    ⟨schemaInv_initial, keysInv_initial, coherent_initial, fun _ => Knows.launch none .empty⟩ hrun
  exact ⟨hinv.1, hinv.2.1, hinv.2.2.2⟩

/-! ### The detail screen and the view -/

/-- The detail screen that has appeared agrees with what a row of the feed would read: it
shows the number of the users that `getInterestedUsers` lists for its post, and its button
is disabled when the signed-in user is one of them. -/
def DetailAgrees (w : World ι) (c : ι) (t : App) : Prop :=
  ∃ d postId users, t.detail = some d ∧ (t.objects d.post).id = some postId ∧
    interestedUsers ((w.localView c).sub ["Posts", postId, "Interested"]) = .ok users ∧
    d.interestedLabel = some (App.membersInterestedText users.length) ∧
    (d.interestedButtonEnabled = false ↔ ∃ uid ∈ users, t.currentUser = some uid)

/-- An object of a device knows all interests in its post that the device's view holds. -/
def KnowsAll (w : World ι) (known : ι → PostRef → List (Key × Uid)) (c : ι) (r : PostRef) :
    Prop :=
  ∀ postId e, ((w.app c).objects r).id = some postId → w.InView c postId e → e ∈ known c r

/-- What `getInterestedUsers` lists for the post of an object: the users of its entries. -/
theorem interestedUsers_of_object (hschema : SchemaInv w) {r : PostRef} {postId : Key}
    (hr : r < (w.app c).nextRef) (hid : ((w.app c).objects r).id = some postId) :
    interestedUsers ((w.localView c).sub ["Posts", postId, "Interested"]) =
      .ok ((interestEntries ((w.localView c).sub ["Posts", postId, "Interested"])).map
        Prod.snd) := by
  obtain ⟨key, post, hpost, hrec⟩ := (hschema.apps c).objects r hr
  have hid' : ((w.app c).objects r).id = some key := congrArg Post.id hrec
  obtain rfl := Option.some.inj (hid.symm.trans hid')
  obtain ⟨_, -, hrecord⟩ := postsOf_applyWrites (hschema.views c) postId
    (mem_children_of_newPost hpost)
  have hinterests : Interests ((w.localView c).sub ["Posts", postId, "Interested"]) :=
    PathTree.sub_sub (w.localView c) ["Posts", postId] ["Interested"] ▸ hrecord.interested
  rw [hinterests.interestedUsers, map_snd_interestEntries]

/-- An object knows all interests in its post when those it knows are the entries. -/
theorem knowsAll_iff_perm (hschema : SchemaInv w) (hkeys : KeysInv w) {r : PostRef}
    {postId : Key} (hid : ((w.app c).objects r).id = some postId)
    (hnodup : ((known c r).map Prod.fst).Nodup) (hfits : ∀ e ∈ known c r, w.InView c postId e) :
    w.KnowsAll known c r ↔
      known c r ~ interestEntries ((w.localView c).sub ["Posts", postId, "Interested"]) := by
  have hmem : ∀ e, e ∈ interestEntries ((w.localView c).sub ["Posts", postId, "Interested"]) ↔
      w.InView c postId e := fun e =>
    mem_interestEntries (hschema.views c) (keys_view_nodup hkeys c)
  constructor
  · intro hall
    refine (List.perm_ext_iff_of_nodup hnodup.of_map
      (keys_interestEntries_nodup _).of_map).mpr fun e => ?_
    rw [hmem]
    exact ⟨hfits e, hall postId e hid⟩
  · intro hperm postId' e hid' he
    obtain rfl := Option.some.inj (hid.symm.trans hid')
    exact hperm.symm.subset ((hmem e).mpr he)

/-- **The detail screen and the view agree** exactly when the object knows everything. In
every run of any number of devices, whenever the detail screen of a device appears, the
number it shows and its button are those of a row of the feed rendered then if and only if
each interest in the post that the device's view holds was in the snapshot the opened
object was decoded from, or was made by a tap on that object's detail screen. -/
theorem detail_agrees_iff {as : List (ι × ClientAction)}
    (hrun : accepted.run initial as = some w) :
    ∃ known, (accepted.withHistory noteInterests).run (initial, fun _ _ => []) as =
        some (w, known) ∧
      ∀ c d t, (w.app c).detail = some d → (w.app c).detailWillAppear d = .ok t →
        (w.DetailAgrees c t ↔ w.KnowsAll known c d.post) := by
  obtain ⟨known, hhistory⟩ := Machine.exists_history noteInterests hrun fun _ _ => []
  obtain ⟨hschema, hkeys, hknown⟩ := knownInv_of_run hhistory
  refine ⟨known, hhistory, fun c d t hd happ => ?_⟩
  obtain ⟨hobjects, huser, d', hd', hpost, hlabel, hbutton⟩ := App.detailWillAppear_shows happ
  have hr : d.post < (w.app c).nextRef :=
    (hschema.apps c).allocated d.post (.ofDetail hd)
  obtain ⟨postId, hid, hperm, hnodup, hfits⟩ := (hknown c).objects d.post hr
  have husers := interestedUsers_of_object hschema hr hid
  have hid' : (t.objects d'.post).id = some postId := by rw [hobjects, hpost, hid]
  rw [knowsAll_iff_perm hschema hkeys hid hnodup hfits]
  set entries := interestEntries ((w.localView c).sub ["Posts", postId, "Interested"])
  constructor
  · rintro ⟨d'', postId', users, hd'', hid'', husers', hlabel', -⟩
    obtain rfl := Option.some.inj (hd'.symm.trans hd'')
    obtain rfl := Option.some.inj (hid'.symm.trans hid'')
    obtain rfl := Except.ok.inj (husers.symm.trans husers')
    -- as many as it shows, and it knows nothing else
    have hlength : ((w.app c).objects d.post).interestedIds.length =
        (entries.map Prod.snd).length :=
      App.membersInterestedText_injective (Option.some.inj (hlabel.symm.trans hlabel'))
    rw [hperm.length_eq, List.length_map, List.length_map] at hlength
    have hsub : known c d.post ⊆ entries := fun e he =>
      (mem_interestEntries (hschema.views c) (keys_view_nodup hkeys c)).mpr (hfits e he)
    exact (hnodup.of_map.subperm hsub).perm_of_length_le hlength.ge
  · intro hknows
    have hids : ((w.app c).objects d.post).interestedIds ~ entries.map Prod.snd :=
      hperm.trans (hknows.map Prod.snd)
    refine ⟨d', postId, _, hd', hid', husers, ?_, ?_⟩
    · rw [hlabel, hids.length_eq]
    · rw [hbutton, huser]
      simp only [hids.mem_iff]

end World

/-! ### Ann's party -/

namespace World

attribute [local instance] Platform.reference

/-- On a device whose feed has one post, the post is opened once its poster's name is
there. -/
def opensPost (device : ℕ) : List (ℕ × ClientAction) :=
  [(device, .feed (.deliver 0)), (device, .feed (.cellForRowAt 0 0)),
    (device, .feed (.userReply ⟨0, 0, "ann"⟩ true)), (device, .feed (.didSelectRowAt 0))]

/-- What the detail screen needs of its post. -/
def opened (post : Post) : List (Option String) := [post.id, post.eventName, post.posterName]

/-- The party is opened again after a tap on it. -/
theorem detail_agrees_after_tap :
    ∃ (w : World ℕ) (d : DetailViewController) (t : App),
      accepted.run initial (annSignsUp ++ annPosts ++ tapsInterested 0 "-K0") = some w ∧
      (w.app 0).detail = some d ∧ (w.app 0).detailWillAppear d = .ok t ∧ w.DetailAgrees 0 t := by
  have hrun : ((accepted.withHistory noteInterests).run ((initial : World ℕ), fun _ _ => [])
        (annSignsUp ++ annPosts ++ tapsInterested 0 "-K0")).map
      (fun x => ((x.1.app 0).detail.map (·.post), opened ((x.1.app 0).objects 0),
        decide (interestsIn "-L0" (x.1.db.viewSeq 0) = x.2 0 0))) =
      some (some 0, [some "-L0", some "Party", some "ann1"], true) := by decide
  obtain ⟨⟨w, known⟩, hhistory, hfacts⟩ := Option.map_eq_some_iff.mp hrun
  simp only [opened, Prod.mk.injEq, List.cons.injEq, decide_eq_true_eq] at hfacts
  obtain ⟨hd, ⟨hid, htitle, hname, -⟩, hall⟩ := hfacts
  obtain ⟨d, hd, hpost⟩ := Option.map_eq_some_iff.mp hd
  obtain ⟨t, ht⟩ : ∃ t, (w.app 0).detailWillAppear d = .ok t :=
    App.detailWillAppear_ok (by rw [hpost, htitle]) (by rw [hpost, hname])
  have hw := Machine.withHistory_run hhistory
  obtain ⟨known', hhistory', hiff⟩ := detail_agrees_iff hw
  obtain rfl : known = known' :=
    congrArg Prod.snd (Option.some.inj (hhistory.symm.trans hhistory'))
  refine ⟨w, d, t, hw, hd, ht, (hiff 0 d t hd ht).mpr fun postId e hid' he => ?_⟩
  rw [hpost] at hid' ⊢
  obtain rfl := Option.some.inj (hid.symm.trans hid')
  have hmem : e ∈ interestsIn "-L0" (w.db.viewSeq 0) :=
    List.mem_filterMap.mpr ⟨_, he, Write.interestIn_eq_some.mpr rfl⟩
  rwa [hall] at hmem

/-- Ann taps on another device: her interest is in the view, and the screen shows nobody. -/
theorem detail_disagrees :
    ∃ (w : World ℕ) (d : DetailViewController) (t : App),
      accepted.run initial (annSignsUp ++ annPosts ++ [(0, .arrive), (0, .arrive)] ++
        annSignsIn ++ opensPost 0 ++ tapsInterested 1 "-K1" ++ [(1, .arrive), (0, .sync 3)]) =
        some w ∧
      (w.app 0).detail = some d ∧ (w.app 0).detailWillAppear d = .ok t ∧
      ¬ w.DetailAgrees 0 t := by
  have hrun : (accepted.run (initial : World ℕ)
        (annSignsUp ++ annPosts ++ [(0, .arrive), (0, .arrive)] ++ annSignsIn ++ opensPost 0 ++
          tapsInterested 1 "-K1" ++ [(1, .arrive), (0, .sync 3)])).map
      (fun w => ((w.app 0).detail.map (·.post), opened ((w.app 0).objects 0),
        ((w.app 0).objects 0).interestedIds,
        (interestedUsers ((w.localView 0).sub ["Posts", "-L0", "Interested"])).toOption)) =
      some (some 0, [some "-L0", some "Party", some "ann1"], [], some ["ann"]) := by decide
  obtain ⟨w, hw, hfacts⟩ := Option.map_eq_some_iff.mp hrun
  simp only [opened, Prod.mk.injEq, List.cons.injEq] at hfacts
  obtain ⟨hd, ⟨hid, htitle, hname, -⟩, hids, husers⟩ := hfacts
  obtain ⟨d, hd, hpost⟩ := Option.map_eq_some_iff.mp hd
  obtain ⟨t, ht⟩ : ∃ t, (w.app 0).detailWillAppear d = .ok t :=
    App.detailWillAppear_ok (by rw [hpost, htitle]) (by rw [hpost, hname])
  refine ⟨w, d, t, hw, hd, ht, ?_⟩
  obtain ⟨hobjects, -, d', hd', hpost', hlabel, -⟩ := App.detailWillAppear_shows ht
  rintro ⟨d'', postId, users, hd'', hid', husers', hlabel', -⟩
  obtain rfl := Option.some.inj (hd'.symm.trans hd'')
  rw [hobjects, hpost', hpost, hid] at hid'
  obtain rfl := Option.some.inj hid'
  have hann : some users = some ["ann"] := (congrArg Except.toOption husers').symm.trans husers
  obtain rfl := Option.some.inj hann
  rw [hlabel', hpost, hids] at hlabel
  exact absurd hlabel (by decide)

end World

end MDBSocials
