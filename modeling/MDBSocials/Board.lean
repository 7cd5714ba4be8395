import MDBSocials.Casts

/-!
# What the Calls Say

Without the tree it is kept in, the database is a board: posts by their keys, the users who
are interested in each of them, and the users by their ids. This module says what the three
writes do to a board, that the tree stands for the board of the writes it is made of, and
that the decoders read off the tree what is on the board, whatever writes are missing.

## Main results

* `Board.Represents.write`: a write does to the tree what it does to the board.
* `Board.Represents.reads`: each of the decoders reads the board.
* `reads_board`: in every run the calls of each device read the board of the writes in its
  view, and the server has that of the writes in its log.
-/

namespace MDBSocials

open scoped List

/-! ### Boards -/

/-- What the writes say. An interest in a post has a key of its own. -/
structure Board where
  posts : Key → Option NewPost := fun _ => none
  interested : Key → Key → Option Uid := fun _ _ => none
  users : Uid → Option NewUser := fun _ => none

namespace Board

/-- A new post has no interests, and a user who is created again is another one. -/
def apply (b : Board) : Write → Board
  | .newPost key post => { b with
      posts := Function.update b.posts key (some post)
      interested := Function.update b.interested key fun _ => none }
  | .createNewUser uid user => { b with users := Function.update b.users uid (some user) }
  | .updateInterested postId key uid => { b with
      interested := Function.update b.interested postId
        (Function.update (b.interested postId) key (some uid)) }

/-- The board of a sequence of writes. -/
def ofWrites (ws : List Write) : Board := ws.foldl apply {}

/-- What a `Post` object holds of a post: its key, even if there is nothing else. -/
def record (b : Board) (key : Key) : Post :=
  match b.posts key with
  | some post => post.record key
  | none => { id := some key }

/-- The users who are interested in a post, in the order of the keys of their interests. -/
def Lists (b : Board) (postId : Key) (ids : List Uid) : Prop :=
  ∃ keys : List Key, keys.SortedLT ∧ (∀ k, k ∈ keys ↔ (b.interested postId k).isSome) ∧
    ids = keys.filterMap (b.interested postId)

/-- What is under the key of a post, apart from its interests. -/
def fields (b : Board) (key : Key) : Node := ((b.posts key).map NewPost.node).getD .empty

/-- What is under the key of an interest. -/
def entry (b : Board) (postId k : Key) : Node :=
  ((b.interested postId k).map fun uid => .leaf (.string uid)).getD .empty

/-- A tree that stands for a board. -/
structure Represents (t : Node) (b : Board) : Prop where
  fields : ∀ key, ∀ f ≠ "Interested", t.sub ["Posts", key, f] = (b.fields key).sub [f]
  interested : ∀ postId k, t.sub ["Posts", postId, "Interested", k] = b.entry postId k
  users : ∀ uid, t.sub ["User", uid] = ((b.users uid).map NewUser.node).getD .empty

namespace Represents

variable {t : Node} {b : Board}

theorem empty : Represents .empty {} := ⟨fun _ _ _ => rfl, fun _ _ => rfl, fun _ => rfl⟩

/-- A new post, whose interests are none. -/
theorem newPost (h : Represents t b) (key : Key) (post : NewPost) :
    Represents (t.set ["Posts", key] post.node) (b.apply (.newPost key post)) where
  fields key' f hf := by
    by_cases hkey : key' = key
    · subst hkey
      have hsub := PathTree.sub_sub (t.set ["Posts", key'] post.node) ["Posts", key'] [f]
      rw [PathTree.sub_set_self] at hsub
      simpa [Board.fields, apply] using hsub.symm
    · rw [PathTree.sub_set_of_incomparable (by simp [Ne.symm hkey]) (by simp [hkey]),
        h.fields key' f hf]
      simp [Board.fields, apply, hkey]
  interested postId k := by
    by_cases hkey : postId = key
    · subst hkey
      have hsub := PathTree.sub_sub (t.set ["Posts", postId] post.node) ["Posts", postId]
        ["Interested", k]
      have hnone : post.node.sub ["Interested", k] = .empty := by
        rw [← List.singleton_append, ← PathTree.sub_sub, post.sub_interested]
        rfl
      rw [PathTree.sub_set_self, hnone] at hsub
      simpa [Board.entry, apply] using hsub.symm
    · rw [PathTree.sub_set_of_incomparable (by simp [Ne.symm hkey]) (by simp [hkey]),
        h.interested postId k]
      simp [Board.entry, apply, hkey]
  users uid := by
    rw [PathTree.sub_set_of_incomparable (by simp) (by simp), h.users uid]
    rfl

theorem createNewUser (h : Represents t b) (uid : Uid) (user : NewUser) :
    Represents (t.set ["User", uid] user.node) (b.apply (.createNewUser uid user)) where
  fields key f hf := by
    rw [PathTree.sub_set_of_incomparable (by simp) (by simp), h.fields key f hf]
    rfl
  interested postId k := by
    rw [PathTree.sub_set_of_incomparable (by simp) (by simp), h.interested postId k]
    rfl
  users uid' := by
    by_cases huid : uid' = uid
    · subst huid
      simp [apply]
    · rw [PathTree.sub_set_of_incomparable (by simp [Ne.symm huid]) (by simp [huid]),
        h.users uid']
      simp [apply, huid]

theorem updateInterested (h : Represents t b) (postId key : Key) (uid : Uid) :
    Represents (t.set ["Posts", postId, "Interested", key] (.leaf (.string uid)))
      (b.apply (.updateInterested postId key uid)) where
  fields key' f hf := by
    rw [PathTree.sub_set_of_incomparable (by simp [Ne.symm hf]) (by simp [hf]),
      h.fields key' f hf]
    rfl
  interested postId' k := by
    by_cases hk : postId' = postId ∧ k = key
    · obtain ⟨rfl, rfl⟩ := hk
      simp [Board.entry, apply]
    · have hne : ["Posts", postId', "Interested", k] ≠ ["Posts", postId, "Interested", key] := by
        simpa using hk
      have hsub := PathTree.sub_set_of_incomparable (t := t) (v := .leaf (.string uid))
        (p := ["Posts", postId, "Interested", key]) (q := ["Posts", postId', "Interested", k])
        (fun hp => hne (hp.eq_of_length rfl).symm) (fun hp => hne (hp.eq_of_length rfl))
      rw [hsub, h.interested postId' k]
      by_cases hpost : postId' = postId
      · subst hpost
        have hk : k ≠ key := fun hkey => hk ⟨rfl, hkey⟩
        simp [Board.entry, apply, hk]
      · simp [Board.entry, apply, hpost]
  users uid' := by
    rw [PathTree.sub_set_of_incomparable (by simp) (by simp), h.users uid']
    rfl

/-- **A write** does to the tree what it does to the board. -/
theorem write (h : Represents t b) (w : Write) : Represents (t.set w.path w.value) (b.apply w) := by
  cases w with
  | newPost key post => exact h.newPost key post
  | createNewUser uid user => exact h.createNewUser uid user
  | updateInterested postId key uid => exact h.updateInterested postId key uid

theorem applyWrites (us : List Write) :
    Represents (MDBSocials.applyWrites .empty us) (ofWrites us) := by
  induction us using List.reverseRecOn with
  | nil => exact empty
  | append_singleton us w ih =>
      rw [applyWrites_snoc, ofWrites, List.foldl_append]
      exact ih.write w

/-! ### Reading a board -/

/-- What is under the key of an interest is there when the interest is on the board. -/
theorem mem_children_interested (h : Represents t b) {postId k : Key} :
    k ∈ (t.sub ["Posts", postId, "Interested"]).children ↔ (b.interested postId k).isSome := by
  have hsub : (t.sub ["Posts", postId, "Interested"]).sub [k] = b.entry postId k := by
    rw [PathTree.sub_sub]
    exact h.interested postId k
  cases hk : b.interested postId k with
  | none =>
      rw [entry, hk] at hsub
      refine iff_of_false (fun hmem => ?_) (by simp)
      obtain ⟨p, hp⟩ := PathTree.mem_children.mp hmem
      have hget : (t.sub ["Posts", postId, "Interested"]).get (k :: p) = none :=
        congrArg (PathTree.get · p) hsub
      rw [hget] at hp
      cases hp
  | some uid =>
      rw [entry, hk] at hsub
      exact iff_of_true (PathTree.mem_children_of_sub_eq_leaf hsub) rfl

theorem userIdAt_interested (h : Represents t b) (postId k : Key) :
    userIdAt (t.sub ["Posts", postId, "Interested"]) k = b.interested postId k := by
  have hget : (t.sub ["Posts", postId, "Interested"]).get [k] = (b.entry postId k).get [] := by
    rw [← h.interested postId k]
    rfl
  rw [userIdAt, hget, entry]
  cases b.interested postId k <;> rfl

/-- The user ids of the entries of a post are those on the board. -/
theorem lists_userIds (h : Represents t b) (postId : Key) :
    b.Lists postId (userIds (t.sub ["Posts", postId, "Interested"])) := by
  refine ⟨(t.sub ["Posts", postId, "Interested"]).childKeys, PathTree.sortedLT_childKeys _,
    fun k => ?_, ?_⟩
  · exact PathTree.mem_childKeys.trans h.mem_children_interested
  · exact List.filterMap_congr fun k _ => h.userIdAt_interested postId k

/-- There is something under a key when it is that of a post, or of interests. -/
theorem mem_children_posts (h : Represents t b) {key : Key}
    (hroot : (t.sub ["Posts"]).get [key] = none)
    (hnode : (t.sub ["Posts"]).get [key, "Interested"] = none) :
    key ∈ (t.sub ["Posts"]).children ↔
      (b.posts key).isSome ∨ ∃ k, (b.interested key k).isSome := by
  constructor
  · intro hkey
    obtain ⟨p, hp⟩ := PathTree.mem_children.mp hkey
    rcases p with _ | ⟨f, p⟩
    · rw [hroot] at hp
      cases hp
    · by_cases hf : f = "Interested"
      · subst hf
        rcases p with _ | ⟨k, p⟩
        · rw [hnode] at hp
          cases hp
        · exact Or.inr ⟨k, h.mem_children_interested.mp (PathTree.mem_children.mpr ⟨p, hp⟩)⟩
      · left
        cases hpost : b.posts key with
        | some post => rfl
        | none =>
            have hfield := h.fields key f hf
            rw [Board.fields, hpost] at hfield
            have hget : (t.sub ["Posts"]).get (key :: f :: p) = none :=
              congrArg (PathTree.get · p) hfield
            rw [hget] at hp
            cases hp
  · rintro (hpost | ⟨k, hk⟩)
    · obtain ⟨post, hpost⟩ := Option.isSome_iff_exists.mp hpost
      have hname := h.fields key "name" (by decide)
      rw [Board.fields, hpost] at hname
      have hget := congrArg (PathTree.get · []) (hname.trans post.isPost_node.name)
      exact PathTree.mem_children.mpr ⟨["name"], Option.isSome_iff_exists.mpr ⟨_, hget⟩⟩
    · obtain ⟨p, hp⟩ := PathTree.mem_children.mp (h.mem_children_interested.mpr hk)
      exact PathTree.mem_children.mpr ⟨"Interested" :: k :: p, hp⟩

end Represents

section Decoders

variable [Platform]

theorem record_eq (b : Board) (key : Key) : b.record key = {
    id := some key
    date := stringField (b.fields key) "date"
    description := stringField (b.fields key) "description"
    eventName := stringField (b.fields key) "name"
    imageUrl := stringField (b.fields key) "pictureURL"
    posterId := stringField (b.fields key) "posterId" } := by
  rw [record, fields]
  cases b.posts key with
  | none => rfl
  | some post =>
      have hpost := post.isPost_node
      simp only [Option.map_some, Option.getD_some, stringField_of_sub hpost.date,
        stringField_of_sub hpost.description, stringField_of_sub hpost.name,
        stringField_of_sub hpost.pictureURL, stringField_of_sub hpost.posterId]
      rfl

/-- **The decoders** of a tree find what a board says. -/
structure Reads (b : Board) (t : Node) : Prop where
  /-- There is a child for each post that was written or found interesting. -/
  children : ∀ key, key ∈ (t.sub ["Posts"]).children ↔
    (b.posts key).isSome ∨ ∃ k, (b.interested key k).isSome
  fetchPosts : ∀ key, ∃ post ids, fetchedPost ⟨key, t.sub ["Posts", key]⟩ = .ok post ∧
    post.record = b.record key ∧ b.Lists key ids ∧ post.interestedIds ~ ids
  getInterestedUsers : ∀ key, ∃ ids, b.Lists key ids ∧
    interestedUsers (t.sub ["Posts", key, "Interested"]) = .ok ids
  getUserWithId : ∀ uid model, userOfSnapshot uid (t.sub ["User", uid]) = .ok model ↔
    ∃ user, b.users uid = some user ∧ model =
      { id := some uid, name := user.name, username := user.username, email := user.email }

variable {t : Node} {b : Board}

/-- What is under the key of a post is decoded field by field, and so is nothing at all. -/
theorem Represents.fetchedPost (h : Represents t b) (key : Key)
    (hshaped : PostShaped (t.sub ["Posts", key])) :
    ∃ post ids, fetchedPost ⟨key, t.sub ["Posts", key]⟩ = .ok post ∧
      post.record = b.record key ∧ b.Lists key ids ∧ post.interestedIds ~ ids := by
  have hlists := h.lists_userIds key
  have hinterested : (t.sub ["Posts", key]).sub ["Interested"] =
      t.sub ["Posts", key, "Interested"] := PathTree.sub_sub ..
  by_cases hchildren : (t.sub ["Posts", key]).children = ∅
  · -- nothing is left of the post
    have hroot : t.get ["Posts", key] = none := hshaped.root
    have hvalue : Node.value (t.sub ["Posts", key]) = .null := by
      simp [Node.value, hroot, hchildren]
    have hnone : b.posts key = none := by
      by_contra hsome
      obtain ⟨post, hpost⟩ := Option.ne_none_iff_exists'.mp hsome
      have hname := (PathTree.sub_sub t ["Posts", key] ["name"]).trans
        (h.fields key "name" (by decide))
      rw [Board.fields, hpost] at hname
      have hmem := PathTree.mem_children_of_sub_eq_leaf (hname.trans post.isPost_node.name)
      simp [hchildren] at hmem
    have hids : userIds (t.sub ["Posts", key, "Interested"]) = [] := by
      rw [← hinterested, PathTree.sub_eq_empty (by simp [hchildren])]
      rfl
    refine ⟨{ id := some key }, [], ?_, ?_, hids ▸ hlists, .refl _⟩
    · simp only [MDBSocials.fetchedPost, hvalue, Post.init]
    · rw [record, hnone]
      rfl
  · obtain ⟨k, hk⟩ := Finset.nonempty_iff_ne_empty.mpr hchildren
    have hvalue := value_of_key hk (hshaped.keys k hk)
    obtain ⟨ids, hids, hperm⟩ := hshaped.interested.interestedField
    have hfield : ∀ f ≠ "Interested",
        stringField (t.sub ["Posts", key]) f = stringField (b.fields key) f := fun f hf =>
      stringField_congr ((PathTree.sub_sub ..).trans (h.fields key f hf))
    refine ⟨{ b.record key with interestedIds := ids }, _, ?_, ?_, hlists, hinterested ▸ hperm⟩
    · simp only [MDBSocials.fetchedPost, hvalue, Post.init, hids, hfield "date" (by decide),
        hfield "description" (by decide), hfield "name" (by decide),
        hfield "pictureURL" (by decide), hfield "posterId" (by decide), record_eq]
      rfl
    · rw [record_eq]
      rfl

/-- **The tree is read** as the board it stands for. -/
theorem Represents.reads (h : Represents t b)
    (hshaped : ∀ key, PostShaped (t.sub ["Posts", key])) : b.Reads t where
  children key := h.mem_children_posts (hshaped key).root (hshaped key).interested.root
  fetchPosts key := h.fetchedPost key (hshaped key)
  getInterestedUsers key := by
    have hinterested : Interests (t.sub ["Posts", key, "Interested"]) :=
      PathTree.sub_sub t ["Posts", key] ["Interested"] ▸ (hshaped key).interested
    exact ⟨_, h.lists_userIds key, hinterested.interestedUsers⟩
  getUserWithId uid model := by
    rw [h.users uid]
    cases b.users uid with
    | none => exact ⟨nofun, nofun⟩
    | some user =>
        have hread := user.isUser_node.userOfSnapshot uid
        simp only [Option.map_some, Option.getD_some, hread, Except.ok.injEq, Option.some.injEq,
          exists_eq_left']
        exact eq_comm

end Decoders

end Board

/-! ### The boards of all devices -/

namespace World

variable [Platform] {ι : Type} [DecidableEq ι] {w : World ι}

/-- **The calls read a board.** After every run of any number of devices, whatever is refused,
lost or interrupted, what the database calls of a device read of its view is the board of the
writes in the view, in their order; what the server answers it is that of the server's log
with the device's own writes behind it; and the server's database is that of its log. -/
theorem reads_board {as : List (ι × ClientAction)} (hrun : machine.run initial as = some w) :
    (∀ c, (Board.ofWrites (w.db.viewSeq c)).Reads (w.localView c)) ∧
      (∀ c, (Board.ofWrites (w.db.serverSeq ++ w.db.pending c)).Reads (w.answer c)) ∧
      (Board.ofWrites w.db.serverSeq).Reads w.serverTree := by
  have hw : ShapeInv w := Machine.run_invariant
    (fun _ _ _ hw hst => hw.step (step_cases hst)) shapeInv_initial hrun
  refine ⟨fun c => ?_, fun c => ?_, ?_⟩
  · exact (Board.Represents.applyWrites _).reads fun key => hw.localView c key
  · exact (Board.Represents.applyWrites _).reads fun key =>
      postShaped_applyWrites (fun x hx => hw.issued x (Replica.issued_of_mem_append hx)) key
  · exact (Board.Represents.applyWrites _).reads fun key =>
      postShaped_applyWrites (fun x hx => hw.issued x (Or.inl hx)) key

end World

/-! ### A board without a post -/

namespace World

attribute [local instance] Platform.reference

/-- Ann's post is refused and her interest in it is not, so that it is on the board without
the post. -/
theorem reads_board_refused_post : ∃ w : World ℕ, machine.run initial (annSignsUp ++ annPosts ++
      tapsInterested 0 "-K0" ++ [(0, .arrive), (0, .reject), (0, .arrive)]) = some w ∧
    (Board.ofWrites w.db.serverSeq).Reads w.serverTree ∧
    (Board.ofWrites w.db.serverSeq).posts "-L0" = none ∧
    (Board.ofWrites w.db.serverSeq).interested "-L0" "-K0" = some "ann" := by
  have hrun : (machine.run (initial : World ℕ) (annSignsUp ++ annPosts ++
      tapsInterested 0 "-K0" ++ [(0, .arrive), (0, .reject), (0, .arrive)])).map (fun w => decide
        ((Board.ofWrites w.db.serverSeq).posts "-L0" = none ∧
          (Board.ofWrites w.db.serverSeq).interested "-L0" "-K0" = some "ann")) = some true := by
    decide
  obtain ⟨w, hw, hfacts⟩ := Option.map_eq_some_iff.mp hrun
  obtain ⟨hpost, hinterest⟩ := of_decide_eq_true hfacts
  exact ⟨w, hw, (reads_board hw).2.2, hpost, hinterest⟩

end World

end MDBSocials
