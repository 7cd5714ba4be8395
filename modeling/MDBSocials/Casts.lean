import MDBSocials.PostSchema

/-!
# Records That May Lack Fields

When writes can be refused, a post's record may be gone while the interests in it are still
written, so that a device is handed posts without a name, a poster or a picture. What is
there is still made of strings under keys of `childByAutoId`: no forced cast fails, and
every picture URL is one that Storage gave out.

## Main results

* `postShaped_applyWrites`: whatever writes are lost, what is under a post's key is made of
  fields that are strings.
* `App.Handed.step`: what holds of all records that an application is shown holds of all that
  it queues and decodes.
* `App.Shaped.perform`: on posts of this shape, a handler traps only where something is
  missing.
* `casts_hold`: in every run at all, what traps is an unwrap or a stale row.
-/

namespace MDBSocials

/-! ### Computations that trap only where something is missing -/

/-- A missing value or a missing row, not a value of the wrong kind. -/
def Trap.Missing : Trap → Prop
  | .forcedUnwrap _ | .indexOutOfRange => True
  | .forcedCast _ | .invalidURL => False

/-- Every trap of the computation is for want of something. -/
def OnlyMissing {α : Type} (x : Except Trap α) : Prop := ∀ trap, x = .error trap → trap.Missing

namespace OnlyMissing

variable {α β : Type}

theorem ok (a : α) : OnlyMissing (.ok a) := by rintro _ ⟨⟩

theorem forceUnwrap (expression : String) (x : Option α) :
    OnlyMissing (forceUnwrap expression x) := by
  cases x with
  | none => rintro _ ⟨⟩; trivial
  | some a => exact ok a

theorem bind {x : Except Trap α} {f : α → Except Trap β} (hx : OnlyMissing x)
    (hf : ∀ a, x = .ok a → OnlyMissing (f a)) : OnlyMissing (x >>= f) := by
  cases x with
  | error trap => exact fun trap' h => hx trap' (congrArg _ (Except.error.inj h))
  | ok a => exact hf a rfl

theorem map {x : Except Trap α} (hx : OnlyMissing x) (f : α → β) : OnlyMissing (x.map f) := by
  cases x with
  | error trap => exact fun trap' h => hx trap' (congrArg _ (Except.error.inj h))
  | ok a => exact ok _

end OnlyMissing

/-! ### The shape of a post -/

section Shapes

variable [Platform]

/-- What is under the key of a post when writes can be refused: the post's own write may be
missing under the interests in it. -/
structure PostShaped (t : Node) : Prop where
  root : t.get [] = none
  keys : ∀ k ∈ t.children, integerLike k = false
  url : ∀ url, stringField t "pictureURL" = some url → ∃ p, url = Platform.downloadURL p
  interested : Interests (t.sub ["Interested"])

/-- What a write needs for posts to keep this shape. -/
def Write.Shapes : Write → Prop
  | .newPost _ post => ∃ p, post.pictureURL = Platform.downloadURL p
  | .createNewUser _ _ => True
  | .updateInterested _ key _ => integerLike key = false

theorem stringField_congr {t t' : Node} {key : Key} (h : t.sub [key] = t'.sub [key]) :
    stringField t key = stringField t' key := by
  rw [stringField, stringField, Node.subscript, Node.subscript, h]

theorem PostShaped.empty : PostShaped .empty :=
  ⟨rfl, by simp, fun _ h => (by cases h), Interests.empty⟩

omit [Platform] in
theorem IsPost.root {post : NewPost} {t : Node} (h : IsPost post t) : t.get [] = none :=
  PathTree.get_nil_of_mem_children (PathTree.mem_children_of_sub_eq_leaf h.name)

omit [Platform] in
/-- The keys of a node are those of its fields. -/
theorem keys_of_fields {t : Node} {fields : List (Key × Scalar)} (ht : t = .node fields)
    (hfields : ∀ k ∈ fields.map Prod.fst, integerLike k = false) :
    ∀ k ∈ t.children, integerLike k = false := by
  subst ht
  exact fun k hk => hfields k (PathTree.mem_fields_of_mem_children hk)

theorem NewPost.shaped {post : NewPost} (h : ∃ p, post.pictureURL = Platform.downloadURL p) :
    PostShaped post.node where
  root := post.isPost_node.root
  keys := keys_of_fields (t := post.node) rfl (by simp; decide)
  url url hurl := by
    rw [stringField_of_sub post.isPost_node.pictureURL] at hurl
    exact Option.some.inj hurl ▸ h
  interested := post.isPost_node.interested

theorem PostShaped.updateInterested {t : Node} (h : PostShaped t) {key : Key}
    (hkey : integerLike key = false) (uid : Uid) :
    PostShaped (t.set ["Interested", key] (.leaf (.string uid))) where
  root := PathTree.get_nil_set_cons ..
  keys k hk := by
    rw [PathTree.children_set_cons (PathTree.present_leaf _)] at hk
    rcases Finset.mem_insert.mp hk with rfl | hk
    · decide
    · exact h.keys k hk
  url url hurl := by
    refine h.url url ?_
    rwa [← stringField_congr (t := t) (by rw [PathTree.sub_set_cons]; rfl)] at hurl
  interested := by
    rw [PathTree.sub_set_cons, if_pos rfl]
    exact h.interested.set hkey uid

/-- **Writes keep the shape**, with or without the post in front of its interests. -/
theorem postShaped_applyWrites {us : List Write} (h : ∀ x ∈ us, x.Shapes) (postId : Key) :
    PostShaped ((applyWrites .empty us).sub ["Posts", postId]) := by
  induction us using List.reverseRecOn with
  | nil => exact .empty
  | append_singleton us x ih =>
      have hold := ih fun y hy => h y (List.mem_append_left _ hy)
      have hx := h x (List.mem_append_right _ (List.mem_singleton_self x))
      rw [applyWrites_snoc]
      cases x with
      | newPost key post =>
          by_cases hkey : key = postId
          · subst hkey
            rw [Write.path, Write.value, PathTree.sub_set_self]
            exact NewPost.shaped hx
          · rwa [Write.path, PathTree.sub_set_of_incomparable (by simp [hkey])
              (by simp [Ne.symm hkey])]
      | createNewUser uid user =>
          rwa [Write.path, PathTree.sub_set_of_incomparable (by simp) (by simp)]
      | updateInterested postId' key uid =>
          by_cases hpost : postId' = postId
          · subst hpost
            have hpath := PathTree.sub_set_append (applyWrites .empty us) ["Posts", postId']
              ["Interested", key] (.leaf (.string uid))
            rw [Write.path, Write.value]
            exact hpath ▸ hold.updateInterested hx uid
          · rwa [Write.path, PathTree.sub_set_of_incomparable (by simp [hpost])
              (by simp [Ne.symm hpost])]

/-! ### Decoding it -/

/-- The picture URL of an object, if it has one, is one of Storage. -/
def Post.UrlOfStorage (post : Post) : Prop :=
  ∀ url, post.imageUrl = some url → ∃ p, url = Platform.downloadURL p

/-- The decoder of the feed takes every post of this shape, and its picture URL from it. -/
theorem PostShaped.fetchedPost {snap : DataSnapshot} (h : PostShaped snap.node) :
    ∃ post, fetchedPost snap = .ok post ∧ post.UrlOfStorage := by
  by_cases hchildren : snap.node.children = ∅
  · have hvalue : snap.node.value = .null := by simp [Node.value, h.root, hchildren]
    simp only [MDBSocials.fetchedPost, hvalue]
    exact ⟨_, rfl, by rintro _ ⟨⟩⟩
  · obtain ⟨k, hk⟩ := Finset.nonempty_iff_ne_empty.mpr hchildren
    have hvalue : snap.node.value = .dictionary snap.node := value_of_key hk (h.keys k hk)
    obtain ⟨ids, hids, -⟩ := h.interested.interestedField
    simp only [MDBSocials.fetchedPost, hvalue, Post.init, hids]
    exact ⟨_, rfl, h.url⟩

end Shapes

/-! ### Applications -/

namespace App

variable [Platform]

/-- All posts that an application can be handed satisfy `P`, and what its objects hold of
their records satisfies `Q`. -/
structure Handed (P : Node → Prop) (Q : Post → Prop) (s : App) : Prop extends FeedInv s where
  view : ∀ key, P (s.view.sub ["Posts", key])
  queued : ∀ o ∈ s.observers, ∀ snap ∈ o.queue, P snap.node
  records : ∀ r, Q (s.objects r).record

namespace Handed

variable {P : Node → Prop} {Q : Post → Prop} {s t : App}

omit [Platform] in
theorem launch (u : Option Uid) {view : Node} (h : ∀ key, P (view.sub ["Posts", key]))
    (hempty : Q {}) : Handed P Q (App.launch u view) where
  toFeedInv := feedInv_launch u view
  view := h
  queued := by rintro _ ⟨⟩
  records _ := hempty

omit [Platform] in
theorem mono {P' : Node → Prop} {Q' : Post → Prop} (h : Handed P Q s) (hP : ∀ t, P t → P' t)
    (hQ : ∀ post, Q post → Q' post) : Handed P' Q' s where
  toFeedInv := h.toFeedInv
  view key := hP _ (h.view key)
  queued o ho snap hsnap := hP _ (h.queued o ho snap hsnap)
  records r := hQ _ (h.records r)

omit [Platform] in
theorem childSnapshots {view : Node} (h : ∀ key, P (view.sub ["Posts", key]))
    {snap : DataSnapshot} (hsnap : snap ∈ MDBSocials.childSnapshots view ["Posts"]) :
    P snap.node := by
  obtain ⟨-, hnode⟩ := mem_childSnapshots.mp hsnap
  exact hnode ▸ h snap.key

/-- **What an application is handed** keeps its properties under every action that shows it
posts with them, if decoding carries them over. -/
theorem step {a : Action} (h : Handed P Q s)
    (hdecoded : ∀ snap post, P snap.node → fetchedPost snap = .ok post → Q post.record)
    (ha : ∀ view, a = .viewChanged view → ∀ key, P (view.sub ["Posts", key]))
    (hst : s.step a = some t) : Handed P Q t := by
  have ht : FeedInv t := h.toFeedInv.step hst
  cases step_feed hst with
  | subscribes hsub =>
      rw [viewWillAppear_subscribing h.toFeedInv hsub] at ht ⊢
      refine ⟨ht, h.view, fun o ho snap hsnap => ?_, h.records⟩
      rcases List.mem_append.mp ho with ho | ho
      · exact h.queued o ho snap hsnap
      · obtain rfl := List.mem_singleton.mp ho
        exact childSnapshots h.view hsnap
  | viewChanged view =>
      refine ⟨ht, ha view rfl, fun o ho snap hsnap => ?_, h.records⟩
      obtain ⟨o', ho', rfl⟩ := List.mem_map.mp ho
      rcases List.mem_append.mp hsnap with hsnap | hsnap
      · exact h.queued o' ho' snap hsnap
      · rw [h.locations o' ho'] at hsnap
        exact childSnapshots (ha view rfl) (List.mem_of_mem_filter hsnap)
  | @deliver i o snap queue post t hd =>
      have ho : o ∈ s.observers := List.mem_of_getElem? hd.observer
      have hnext : snap ∈ o.queue := hd.next ▸ List.mem_cons_self
      refine ⟨ht, hd.view ▸ h.view, fun o' ho' snap' hsnap' => ?_, fun r => ?_⟩
      · rw [hd.observers] at ho'
        rcases List.mem_or_eq_of_mem_set ho' with ho' | rfl
        · exact h.queued o' ho' snap' hsnap'
        · exact h.queued o ho snap' (hd.next ▸ List.mem_cons_of_mem _ hsnap')
      · rw [hd.objects]
        by_cases hr : r = s.nextRef
        · -- the new object, which the decoder has just made
          subst hr
          rw [Function.update_self]
          exact hdecoded snap post (h.queued o ho snap hnext) hd.decoded
        · rw [Function.update_of_ne hr]
          exact h.records r
  | kept hsub hview hdeliver hkept =>
      exact ⟨ht, hkept.view ▸ h.view, fun o ho => h.queued o (hkept.observers_subset ho),
        fun r => hkept.records r ▸ h.records r⟩

end Handed

/-- The posts that an application can be handed have the shape, and the picture URLs that it
holds are those of Storage. -/
abbrev Shaped (s : App) : Prop := s.Handed PostShaped Post.UrlOfStorage

namespace Shaped

variable {s t : App}

theorem launch (u : Option Uid) {view : Node} (h : ∀ key, PostShaped (view.sub ["Posts", key])) :
    Shaped (App.launch u view) :=
  Handed.launch u h (by rintro _ ⟨⟩)

/-- **The shape is kept** by every action that shows the application posts of it. -/
theorem step {a : Action} (h : Shaped s)
    (ha : ∀ view, a = .viewChanged view → ∀ key, PostShaped (view.sub ["Posts", key]))
    (hst : s.step a = some t) : Shaped t := by
  refine Handed.step h (fun snap post hshaped hpost => ?_) ha hst
  obtain ⟨post', hpost', hurls⟩ := hshaped.fetchedPost
  obtain rfl := Except.ok.inj (hpost.symm.trans hpost')
  exact hurls

theorem run {as : List Action} (h : Shaped s)
    (has : ∀ view, .viewChanged view ∈ as → ∀ key, PostShaped (view.sub ["Posts", key]))
    (hrun : machine.run s as = some t) : Shaped t := by
  induction as generalizing s with
  | nil => exact Option.some.inj hrun ▸ h
  | cons a as ih =>
      obtain ⟨u, hu, hrun⟩ := Machine.run_cons_eq_some.mp hrun
      have ha : ∀ view, a = .viewChanged view → ∀ key, PostShaped (view.sub ["Posts", key]) :=
        fun view hav => has view (hav ▸ List.mem_cons_self)
      exact ih (h.step ha hu) (fun view hview => has view (List.mem_cons_of_mem _ hview)) hrun

/-! ### Handlers on posts that may lack fields -/

theorem loadPicture {r : PostRef} (hurl : (s.objects r).UrlOfStorage) (cell : CellRef) :
    OnlyMissing (s.loadPicture r cell) := by
  rw [App.loadPicture]
  split
  · refine .bind (.forceUnwrap _ _) fun url hsome => ?_
    obtain ⟨p, rfl⟩ := hurl url (forceUnwrap_eq_ok.mp hsome)
    rw [Platform.referenceForURL_downloadURL]
    exact .ok _
  · exact .ok _

theorem cellForRowAt (h : Shaped s) (row : ℕ) (cell : CellRef) :
    OnlyMissing (s.cellForRowAt row cell) := by
  rw [App.cellForRowAt]
  split
  · rintro _ ⟨⟩
    trivial
  · rename_i r _
    have hpicture : OnlyMissing ((s.awakeCell r cell).loadPicture r cell) :=
      loadPicture (s := s.awakeCell r cell) (h.records r) cell
    refine .bind hpicture fun s₁ _ => .bind ?_ fun s₂ _ => ?_
    · rw [loadPosterName]
      split
      · exact .bind (.forceUnwrap _ _) fun _ _ => .ok _
      · exact .ok _
    · exact .bind (.forceUnwrap _ _) fun _ _ => .ok _

omit [Platform] in
theorem tappedInterested (d : DetailViewController) (key : Key) :
    OnlyMissing (s.tappedInterested d key) :=
  .bind (.forceUnwrap _ _) fun _ _ => .bind (.forceUnwrap _ _) fun _ _ => .ok _

/-- **Every handler** traps for want of something only, when the users it is told about are
listed as strings. -/
theorem perform (h : Shaped s) {a : Action} {x : Except Trap App}
    (ha : ∀ q node, a = .interestedReply q node → Interests node)
    (hx : s.perform a = some x) : OnlyMissing x := by
  cases a with
  | viewWillAppear | logOut | sessionLoss | tappedLogin | userCreated | viewChanged =>
      obtain rfl := Option.some.inj hx
      exact .ok _
  | signInReply | pictureReply =>
      obtain ⟨-, hx⟩ := Option.ite_none_right_eq_some.mp hx
      exact Option.some.inj hx ▸ .ok _
  | deliver i =>
      obtain ⟨⟨snap, u⟩, htake, rfl⟩ := Option.map_eq_some_iff.mp hx
      rw [takeEvent] at htake
      split at htake
      · rename_i location snap' queue hi
        obtain ⟨rfl, rfl⟩ := Prod.mk.inj (Option.some.inj htake)
        obtain ⟨post, hpost, -⟩ :=
          (h.queued _ (List.mem_of_getElem? hi) snap' List.mem_cons_self).fetchedPost
        simp only [childAdded, hpost]
        exact .ok _
      · cases htake
  | cellForRowAt row cell =>
      obtain ⟨-, hx⟩ := Option.ite_none_right_eq_some.mp hx
      exact Option.some.inj hx ▸ h.cellForRowAt row cell
  | userReply q node =>
      obtain ⟨-, hx⟩ := Option.ite_none_right_eq_some.mp hx
      obtain rfl := Option.some.inj hx
      cases node with
      | none => exact .ok _
      | some node =>
          refine .bind ?_ fun user _ => .bind (.forceUnwrap _ _) fun _ _ => .ok _
          exact .bind (.forceUnwrap _ _) fun _ _ => .bind (.forceUnwrap _ _) fun _ _ =>
            .bind (.forceUnwrap _ _) fun _ _ => .ok _
  | interestedReply q node =>
      obtain ⟨-, hx⟩ := Option.ite_none_right_eq_some.mp hx
      obtain rfl := Option.some.inj hx
      simp only [interestedReply, (ha q node rfl).interestedUsers]
      exact .ok _
  | didSelectRowAt row =>
      obtain ⟨-, hx⟩ := Option.ite_none_right_eq_some.mp hx
      obtain rfl := Option.some.inj hx
      rw [didSelectRowAt]
      split
      · rintro _ ⟨⟩
        trivial
      · exact .ok _
  | detailWillAppear =>
      obtain ⟨d, -, rfl⟩ := Option.map_eq_some_iff.mp hx
      exact .bind (.forceUnwrap _ _) fun _ _ =>
        .bind (.bind (.forceUnwrap _ _) fun _ _ => .ok _) fun _ _ => .ok _
  | tappedInterested key =>
      obtain ⟨d, -, hx⟩ := Option.bind_eq_some_iff.mp hx
      obtain ⟨-, hx⟩ := Option.ite_none_right_eq_some.mp hx
      obtain rfl := Option.some.inj hx
      exact (tappedInterested d key).map _

end Shaped

end App

/-! ### All devices -/

namespace World

variable [Platform] {ι : Type} {w w' : World ι} {c : ι} {a : ClientAction}

/-- All writes and applications are as this module says. -/
structure ShapeInv (w : World ι) : Prop where
  issued : ∀ x, w.db.Issued x → x.Shapes
  apps : ∀ c, (w.clients c).app.Shaped

theorem shapeInv_initial : ShapeInv (initial : World ι) where
  issued x hx := by rcases hx with hx | ⟨c, hx⟩ <;> cases hx
  apps c := .launch none fun key => .empty

variable [DecidableEq ι]

/-- What a device sees of posts has the shape. -/
theorem ShapeInv.localView (h : ShapeInv w) (c : ι) (key : Key) :
    PostShaped ((w.localView c).sub ["Posts", key]) :=
  postShaped_applyWrites (fun x hx => h.issued x (Replica.issued_of_mem_viewSeq hx)) key

/-- **No action** traps but for want of something. -/
theorem ShapeInv.perform (h : ShapeInv w) {x : Except Trap (World ι)}
    (hx : w.perform c a = some x) : OnlyMissing x := by
  cases a with
  | feed b =>
      obtain ⟨a', hinput, hx⟩ := Option.bind_eq_some_iff.mp hx
      obtain ⟨y, hy, rfl⟩ := Option.map_eq_some_iff.mp hx
      refine ((h.apps c).perform (fun q node ha' => ?_) hy).map _
      subst ha'
      cases b with
      | interestedReply q' =>
          obtain ⟨rfl, rfl⟩ := Action.interestedReply.inj (Option.some.inj hinput)
          have hpost := h.localView c q'.postId
          exact PathTree.sub_sub (w.localView c) ["Posts", q'.postId] ["Interested"] ▸
            hpost.interested
      | signInReply =>
          obtain ⟨-, hinput⟩ := Option.ite_none_right_eq_some.mp hinput
          cases hinput
      | _ => cases hinput
  | tappedInterested key =>
      obtain ⟨d, -, hx⟩ := Option.bind_eq_some_iff.mp hx
      obtain ⟨-, hx⟩ := Option.ite_none_right_eq_some.mp hx
      exact Option.some.inj hx ▸ (App.Shaped.tappedInterested d key).map _
  | newPostWithImage submission =>
      exact Option.some.inj hx ▸ OnlyMissing.map (.bind (.forceUnwrap _ _) fun _ _ => .ok _) _
  | uploadSucceeds i key =>
      obtain ⟨-, hx⟩ := Option.ite_none_right_eq_some.mp hx
      obtain ⟨u, -, rfl⟩ := Option.map_eq_some_iff.mp hx
      exact OnlyMissing.map (.bind (.forceUnwrap _ _) fun _ _ =>
        .bind (.forceUnwrap _ _) fun _ _ => .ok _) _
  | uploadLacksURL i =>
      obtain ⟨u, -, rfl⟩ := Option.map_eq_some_iff.mp hx
      exact OnlyMissing.map (.bind (.forceUnwrap _ _) nofun) _
  | signUpSucceeds i =>
      obtain ⟨user, -, rfl⟩ := Option.map_eq_some_iff.mp hx
      exact OnlyMissing.map (.bind (.forceUnwrap _ _) fun _ _ => .ok _) _
  | accountCreated i uid =>
      obtain ⟨-, hx⟩ := Option.ite_none_left_eq_some.mp hx
      obtain ⟨user, -, rfl⟩ := Option.map_eq_some_iff.mp hx
      exact .ok _
  | signUp user | terminate => exact Option.some.inj hx ▸ .ok _
  | pictureStored | uploadFails | uploadReplyLost | signUpFails | arrive | reject | sync =>
      obtain ⟨y, -, rfl⟩ := Option.map_eq_some_iff.mp hx
      exact .ok _

omit [DecidableEq ι] in
/-- The URL that `newPost` writes is one of Storage, and the key of an interest one of
`childByAutoId`. -/
theorem Issues.shapes {x : Write} (h : Issues w c a x) : x.Shapes := by
  cases h with
  | tappedInterested hkey huid => exact hkey.2
  | @uploadSucceeds i key u uid hu huid => exact ⟨u.imageRef, rfl⟩
  | signUpSucceeds => trivial

theorem ShapeInv.step (h : ShapeInv w) (hst : Step w c a w') : ShapeInv w' := by
  have hissued : ∀ x, w'.db.Issued x → x.Shapes := fun x hx =>
    (hst.db.issued hx).elim (h.issued x) Issues.shapes
  have hview : ∀ d key, PostShaped ((w'.localView d).sub ["Posts", key]) := fun d key =>
    postShaped_applyWrites (fun x hx => hissued x (Replica.issued_of_mem_viewSeq hx)) key
  refine ⟨hissued, fun d => ?_⟩
  by_cases hd : d = c
  · subst hd
    rcases hst.app with ⟨-, u, hlaunch⟩ | ⟨⟨as, hrun, hviews⟩, -⟩
    · have happ : (w'.app d).Shaped := hlaunch ▸ .launch u (hview d)
      exact happ
    · exact (h.apps d).run (fun view hmem => hviews view hmem ▸ hview d) hrun
  · rw [hst.clients_of_ne hd]
    exact h.apps d

/-- **Casts hold.** After every run of any number of devices, whichever writes are refused or
lost and however records lose their fields by it, an action that ends the process does so
because it unwraps a missing value or looks up a row that is no more: no forced cast fails,
and every URL that `getPicture` is given is one of Storage. -/
theorem casts_hold {as : List (ι × ClientAction)} (hrun : machine.run initial as = some w)
    {trap : Trap} (htrap : w.perform c a = some (.error trap)) :
    trap = .indexOutOfRange ∨ ∃ expression, trap = .forcedUnwrap expression := by
  have hw : ShapeInv w := Machine.run_invariant
    (fun _ _ _ hw hst => hw.step (step_cases hst)) shapeInv_initial hrun
  have hmissing : trap.Missing := hw.perform htrap trap rfl
  cases trap with
  | indexOutOfRange => exact Or.inl rfl
  | forcedUnwrap expression => exact Or.inr ⟨expression, rfl⟩
  | forcedCast | invalidURL => exact hmissing.elim

end World

/-! ### A post without its record -/

namespace World

attribute [local instance] Platform.reference

/-- Ann's post is refused and her interest in it is not. What is left of the post has neither
a name nor a picture, and its row ends the process. -/
theorem casts_hold_refused_post :
    ∃ (w : World ℕ) (trap : Trap), machine.run initial (annSignsUp ++ annPosts ++
        tapsInterested 0 "-K0" ++ [(0, .arrive), (0, .reject), (0, .arrive), (0, .terminate),
          (0, .sync 2), (0, .feed .viewWillAppear), (0, .feed (.deliver 0))]) = some w ∧
      w.perform 0 (.feed (.cellForRowAt 0 0)) = some (.error trap) ∧
      (trap = .indexOutOfRange ∨ ∃ expression, trap = .forcedUnwrap expression) := by
  have hrun : (machine.run (initial : World ℕ) (annSignsUp ++ annPosts ++
      tapsInterested 0 "-K0" ++ [(0, .arrive), (0, .reject), (0, .arrive), (0, .terminate),
        (0, .sync 2), (0, .feed .viewWillAppear), (0, .feed (.deliver 0))])).map (fun w =>
          (w.perform 0 (.feed (.cellForRowAt 0 0))).bind fun x => match x with
            | .error trap => some trap
            | .ok _ => none) = some (some (.forcedUnwrap "imageUrl!")) := by decide
  obtain ⟨w, hw, htrap⟩ := Option.map_eq_some_iff.mp hrun
  obtain ⟨x, hx, hmatch⟩ := Option.bind_eq_some_iff.mp htrap
  cases x with
  | ok w' => cases hmatch
  | error trap => exact ⟨w, trap, hw, hx, casts_hold hw hx⟩

end World

end MDBSocials
