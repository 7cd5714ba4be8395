import MDBSocials.FeedSubscription
import MDBSocials.Schema

/-!
# What the Feed Is Handed

`Faithful issued s` says that all the application `s` knows of posts goes back to calls of
`newPost`: the records in its view of the database, those in the events queued for its
observers, and the `Post` objects it has allocated. `issued key post` stands for such a
call.

## Main results

* `Faithful.step`: an application stays faithful as long as the views it is given are.
* `Faithful.fetchedPost`: no queued event makes the decoder of the feed trap.
* `Faithful.eventName`: every allocated object has the name of its event.
-/

namespace MDBSocials

/-- Every record under `Posts` is that of an issued post. -/
def PostsOf (issued : Key → NewPost → Prop) (view : Node) : Prop :=
  ∀ k ∈ (view.sub ["Posts"]).children,
    ∃ post, issued k post ∧ IsPost post (view.sub ["Posts", k])

theorem postsOf_empty (issued : Key → NewPost → Prop) : PostsOf issued .empty := nofun

theorem PostsOf.mono {issued issued' : Key → NewPost → Prop}
    (hsub : ∀ k post, issued k post → issued' k post) {view : Node}
    (h : PostsOf issued view) : PostsOf issued' view := fun k hk => by
  obtain ⟨post, hpost, hrec⟩ := h k hk
  exact ⟨post, hsub k post hpost, hrec⟩

/-- What a write needs of the database for all records to stay posts' records: a user is
added to a record that is there. -/
def Write.FitsPosts (issued : Key → NewPost → Prop) (db : Node) : Write → Prop
  | .newPost key post => issued key post
  | .createNewUser _ _ => True
  | .updateInterested postId key _ =>
      postId ∈ (db.sub ["Posts"]).children ∧ integerLike key = false

theorem PostsOf.write {issued : Key → NewPost → Prop} {db : Node} (h : PostsOf issued db)
    {w : Write} (hw : w.FitsPosts issued db) : PostsOf issued (db.set w.path w.value) := by
  have hpath : ∀ p v, (db.set ("Posts" :: p) v).sub ["Posts"] = (db.sub ["Posts"]).set p v :=
    PathTree.sub_set_append db ["Posts"]
  have hsub : ∀ t : Node, ∀ k, t.sub ["Posts", k] = (t.sub ["Posts"]).sub [k] :=
    fun t k => (PathTree.sub_sub t ["Posts"] [k]).symm
  intro k hk
  rw [hsub]
  cases w with
  | newPost key post =>
      simp only [Write.path, Write.value] at hk ⊢
      rw [hpath] at hk ⊢
      rw [PathTree.sub_set_cons]
      by_cases hkk : k = key
      · subst hkk
        exact ⟨post, hw, by simpa using post.isPost_node⟩
      · rw [if_neg hkk, ← hsub]
        rw [PathTree.children_set_cons post.isPost_node.present] at hk
        exact h k ((Finset.mem_insert.mp hk).resolve_left hkk)
  | createNewUser uid user =>
      have hother : (db.set ["User", uid] user.node).sub ["Posts"] = db.sub ["Posts"] :=
        PathTree.sub_set_of_incomparable (by simp) (by simp)
      simp only [Write.path, Write.value] at hk ⊢
      rw [hother] at hk ⊢
      rw [← hsub]
      exact h k hk
  | updateInterested postId key uid =>
      obtain ⟨hpost, hkey⟩ := hw
      simp only [Write.path, Write.value] at hk ⊢
      rw [hpath] at hk ⊢
      rw [PathTree.children_set_cons (PathTree.present_leaf _), Finset.mem_insert] at hk
      rw [PathTree.sub_set_cons]
      have hold : k ∈ (db.sub ["Posts"]).children := hk.elim (· ▸ hpost) id
      obtain ⟨post, hissued, hrec⟩ := h k hold
      rw [hsub] at hrec
      by_cases hkk : k = postId
      · subst hkk
        rw [if_pos rfl]
        exact ⟨post, hissued, hrec.updateInterested hkey uid⟩
      · rw [if_neg hkk]
        exact ⟨post, hissued, hrec⟩

/-- The posts an application knows are the issued ones. -/
structure Faithful (issued : Key → NewPost → Prop) (s : App) : Prop extends
    App.FeedInv s where
  view : PostsOf issued s.view
  queued : ∀ o ∈ s.observers, ∀ snap ∈ o.queue,
    ∃ post, issued snap.key post ∧ IsPost post snap.node
  objects : ∀ r < s.nextRef,
    ∃ key post, issued key post ∧ (s.objects r).record = post.record key

namespace Faithful

open App

variable {issued : Key → NewPost → Prop}

theorem launch (u : Option Uid) {view : Node} (h : PostsOf issued view) :
    Faithful issued (App.launch u view) where
  toFeedInv := feedInv_launch u view
  view := h
  queued := nofun
  objects := nofun

theorem mono {issued' : Key → NewPost → Prop}
    (hsub : ∀ k post, issued k post → issued' k post) {s : App} (h : Faithful issued s) :
    Faithful issued' s where
  toFeedInv := h.toFeedInv
  view := h.view.mono hsub
  queued o ho snap hsnap := by
    obtain ⟨post, hpost, hrec⟩ := h.queued o ho snap hsnap
    exact ⟨post, hsub _ post hpost, hrec⟩
  objects r hr := by
    obtain ⟨key, post, hpost, hrec⟩ := h.objects r hr
    exact ⟨key, post, hsub key post hpost, hrec⟩

/-- An allocated object has the name of its event. -/
theorem eventName {s : App} (h : Faithful issued s) {r : PostRef} (hr : r < s.nextRef) :
    (s.objects r).eventName ≠ none := by
  obtain ⟨key, post, -, hrec⟩ := h.objects r hr
  have hname : (s.objects r).eventName = some post.name := congrArg Post.eventName hrec
  simp [hname]

/-- The snapshots of the children of `Posts` are of issued posts. -/
theorem childSnapshots {view : Node} (h : PostsOf issued view) {snap : DataSnapshot}
    (hsnap : snap ∈ MDBSocials.childSnapshots view ["Posts"]) :
    ∃ post, issued snap.key post ∧ IsPost post snap.node := by
  obtain ⟨hkey, hnode⟩ := mem_childSnapshots.mp hsnap
  obtain ⟨post, hpost, hrec⟩ := h snap.key hkey
  exact ⟨post, hpost, hnode ▸ hrec⟩

/-- What neither fills the feed nor empties it. -/
theorem of_kept {s t : App} (h : Faithful issued s) (ht : FeedInv t) (hkept : KeptFeed s t) :
    Faithful issued t where
  toFeedInv := ht
  view := hkept.view ▸ h.view
  queued o ho := h.queued o (hkept.observers_subset ho)
  objects r hr := by
    rw [hkept.records r]
    exact h.objects r (hkept.nextRef ▸ hr)

theorem viewChanged {s : App} (h : Faithful issued s) {view : Node}
    (hview : PostsOf issued view) : Faithful issued (s.viewChanged view) where
  locations o ho := by
    obtain ⟨o', ho', rfl⟩ := List.mem_map.mp ho
    exact h.locations o' ho'
  allocated := h.allocated
  view := hview
  queued o ho snap hsnap := by
    obtain ⟨o', ho', rfl⟩ := List.mem_map.mp ho
    rcases List.mem_append.mp hsnap with hsnap | hsnap
    · exact h.queued o' ho' snap hsnap
    · rw [h.locations o' ho'] at hsnap
      exact childSnapshots hview (List.mem_of_mem_filter hsnap)
  objects := h.objects

variable [Platform]

/-- **No event traps**: the decoder of the feed reads back a post that was issued. -/
theorem fetchedPost {s : App} (h : Faithful issued s) {o : Observer} (ho : o ∈ s.observers)
    {snap : DataSnapshot} (hsnap : snap ∈ o.queue) :
    ∃ post p, issued snap.key post ∧ MDBSocials.fetchedPost snap = .ok p ∧
      p.record = post.record snap.key := by
  obtain ⟨post, hpost, hrec⟩ := h.queued o ho snap hsnap
  obtain ⟨p, hp, hrecord, -⟩ := hrec.fetchedPost
  exact ⟨post, p, hpost, hp, hrecord⟩

theorem deliver {s t : App} (h : Faithful issued s) (ht : FeedInv t) {i : ℕ} {o : Observer}
    {snap : DataSnapshot} {queue : List DataSnapshot} {post : Post}
    (hd : Delivered s i o snap queue post t) : Faithful issued t where
  toFeedInv := ht
  view := hd.view ▸ h.view
  queued o' ho' snap' hsnap' := by
    have ho : o ∈ s.observers := List.mem_of_getElem? hd.observer
    rw [hd.observers] at ho'
    rcases List.mem_or_eq_of_mem_set ho' with ho' | rfl
    · exact h.queued o' ho' snap' hsnap'
    · exact h.queued o ho snap' (hd.next ▸ List.mem_cons_of_mem _ hsnap')
  objects r hr := by
    have ho : o ∈ s.observers := List.mem_of_getElem? hd.observer
    rw [hd.nextRef] at hr
    rw [hd.objects]
    rcases Nat.lt_succ_iff_lt_or_eq.mp hr with hr | rfl
    · rw [Function.update_of_ne (Nat.ne_of_lt hr)]
      exact h.objects r hr
    · obtain ⟨new, p, hnew, hp, hrec⟩ := h.fetchedPost ho (hd.next ▸ List.mem_cons_self)
      obtain rfl := Except.ok.inj (hd.decoded.symm.trans hp)
      exact ⟨snap.key, new, hnew, by rw [Function.update_self, hrec]⟩

/-- **Faithfulness is kept** by every action that shows the application issued posts
only. -/
theorem step {s t : App} {a : Action} (h : Faithful issued s)
    (ha : ∀ view, a = .viewChanged view → PostsOf issued view) (hst : s.step a = some t) :
    Faithful issued t := by
  have ht : FeedInv t := h.toFeedInv.step hst
  cases step_feed hst with
  | subscribes hsub =>
      rw [viewWillAppear_subscribing h.toFeedInv hsub] at ht ⊢
      refine ⟨ht, h.view, fun o ho snap hsnap => ?_, h.objects⟩
      rcases List.mem_append.mp ho with ho | ho
      · exact h.queued o ho snap hsnap
      · obtain rfl := List.mem_singleton.mp ho
        exact childSnapshots h.view hsnap
  | viewChanged view => exact h.viewChanged (ha view rfl)
  | deliver hd => exact h.deliver ht hd
  | kept hsub hview hdeliver hkept => exact h.of_kept ht hkept

/-- A run that is shown issued posts only keeps an application faithful. -/
theorem run {s t : App} {as : List Action} (h : Faithful issued s)
    (has : ∀ view, .viewChanged view ∈ as → PostsOf issued view)
    (hrun : machine.run s as = some t) : Faithful issued t := by
  induction as generalizing s with
  | nil => exact Option.some.inj hrun ▸ h
  | cons a as ih =>
      obtain ⟨u, hu, hrun⟩ := Machine.run_cons_eq_some.mp hrun
      have ha : ∀ view, a = .viewChanged view → PostsOf issued view := fun view hav =>
        has view (hav ▸ List.mem_cons_self)
      exact ih (h.step ha hu) (fun view hview => has view (List.mem_cons_of_mem _ hview)) hrun

end Faithful

end MDBSocials
