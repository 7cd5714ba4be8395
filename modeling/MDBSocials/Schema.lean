import MDBSocials.DatabaseHelper

/-!
# The Records of the Database

The shapes that the three writes give to the nodes of the database: `IsPost` for a record
under `Posts`, `Interests` for the node that `updateInterested` writes into, and `IsUser`
for a record under `User`. Each is what the write puts there, and each is what the
decoders need.

## Main results

* `IsPost.updateInterested`: a post's record stays one when users are added to it.
* `IsPost.fetchedPost`: the decoder of the feed reads back what `newPost` wrote.
* `Interests.interestedUsers` and `Interests.interestedField`: the two decoders of the
  interested users never trap, and return the same users up to order.
* `IsUser.userOfSnapshot`: the decoder of users reads back what `createNewUser` wrote.
-/

namespace MDBSocials

open scoped List

/-! ### The interested users of a post -/

/-- The user id stored under a key. -/
def userIdAt (t : Node) (k : Key) : Option Uid :=
  match t.get [k] with
  | some (.string uid) => some uid
  | _ => none

/-- The user ids stored under the keys of a node, in key order. -/
def userIds (t : Node) : List Uid := t.childKeys.filterMap (userIdAt t)

/-- A node that holds user ids under keys made by `childByAutoId`. -/
structure Interests (t : Node) : Prop where
  root : t.get [] = none
  entries : ∀ k ∈ t.children, integerLike k = false ∧ ∃ uid, t.sub [k] = .leaf (.string uid)

theorem userIdAt_of_sub {t : Node} {k : Key} {uid : Uid}
    (h : t.sub [k] = .leaf (.string uid)) : userIdAt t k = some uid := by
  have hget : t.get [k] = (t.sub [k]).get [] := rfl
  rw [userIdAt, hget, h]
  rfl

namespace Interests

theorem empty : Interests .empty := ⟨rfl, nofun⟩

/-- One more user. -/
theorem set {t : Node} (h : Interests t) {key : Key} (hkey : integerLike key = false)
    (uid : Uid) : Interests (t.set [key] (.leaf (.string uid))) := by
  refine ⟨PathTree.get_nil_set_cons .., fun k hk => ?_⟩
  rw [PathTree.children_set_cons (PathTree.present_leaf _)] at hk
  rw [PathTree.sub_set_cons]
  by_cases hkk : k = key
  · subst hkk
    exact ⟨hkey, uid, by simp⟩
  · rw [if_neg hkk]
    exact h.entries k ((Finset.mem_insert.mp hk).resolve_left hkk)

end Interests

/-- A fresh key adds its user to the others. -/
theorem userIds_set {t : Node} {key : Key} (hkey : key ∉ t.children) (uid : Uid) :
    userIds (t.set [key] (.leaf (.string uid))) ~ uid :: userIds t := by
  set t' := t.set [key] (.leaf (.string uid)) with ht'
  have hkeys : t'.childKeys.Perm (key :: t.childKeys) :=
    PathTree.childKeys_set_cons hkey [] (PathTree.present_leaf _)
  have hself : userIdAt t' key = some uid := userIdAt_of_sub (PathTree.sub_set_self ..)
  have hothers : ∀ k ∈ t.childKeys, userIdAt t' k = userIdAt t k := by
    intro k hk
    have hne : k ≠ key := fun h => hkey (h ▸ PathTree.mem_childKeys.mp hk)
    rw [userIdAt, ht', PathTree.get_set_of_incomparable (by simpa using hne.symm)
      (by simpa using hne)]
    rfl
  calc userIds t' ~ (key :: t.childKeys).filterMap (userIdAt t') := hkeys.filterMap _
    _ = uid :: userIds t := by
        rw [List.filterMap_cons_some hself, userIds, List.filterMap_congr hothers]

/-! ### Records -/

/-- A record under `Posts`: what `newPost` wrote, and the users added since. -/
structure IsPost (post : NewPost) (t : Node) : Prop where
  name : t.sub ["name"] = .leaf (.string post.name)
  pictureURL : t.sub ["pictureURL"] = .leaf (.string post.pictureURL)
  posterId : t.sub ["posterId"] = .leaf (.string post.posterId)
  description : t.sub ["description"] = .leaf (.string post.description)
  date : t.sub ["date"] = .leaf (.string post.date)
  interested : Interests (t.sub ["Interested"])

/-- A record under `User`: what `createNewUser` wrote. -/
structure IsUser (user : NewUser) (t : Node) : Prop where
  name : t.sub ["name"] = .leaf (.string user.name)
  username : t.sub ["username"] = .leaf (.string user.username)
  email : t.sub ["email"] = .leaf (.string user.email)

theorem leaf_string_injective {a b : String}
    (h : (PathTree.leaf (.string a) : Node) = .leaf (.string b)) : a = b := by
  have hroot := congrArg (PathTree.get · []) h
  exact Scalar.string.inj (Option.some.inj hroot)

theorem NewPost.isPost_node (post : NewPost) : IsPost post post.node := by
  constructor <;> simp [NewPost.node, PathTree.node, PathTree.sub_set_cons]
  exact Interests.empty

/-- Nobody is interested in a new post. -/
theorem NewPost.sub_interested (post : NewPost) : post.node.sub ["Interested"] = .empty := by
  simp [NewPost.node, PathTree.node, PathTree.sub_set_cons]
  rfl

theorem NewUser.isUser_node (user : NewUser) : IsUser user user.node := by
  constructor <;> simp [NewUser.node, PathTree.node, PathTree.sub_set_cons]

theorem IsPost.present {post : NewPost} {t : Node} (h : IsPost post t) : t.Present :=
  PathTree.present_of_mem_children (PathTree.mem_children_of_sub_eq_leaf h.name)

/-- A record stays one when a user is added. -/
theorem IsPost.updateInterested {post : NewPost} {t : Node} (h : IsPost post t) {key : Key}
    (hkey : integerLike key = false) (uid : Uid) :
    IsPost post (t.set ["Interested", key] (.leaf (.string uid))) := by
  constructor <;> simp only [PathTree.sub_set_cons]
  · exact h.name
  · exact h.pictureURL
  · exact h.posterId
  · exact h.description
  · exact h.date
  · exact h.interested.set hkey uid

/-- What a `Post` object holds of a record with a key. -/
def NewPost.record (post : NewPost) (key : Key) : Post where
  id := some key
  date := some post.date
  description := some post.description
  eventName := some post.name
  imageUrl := some post.pictureURL
  posterId := some post.posterId

/-! ### Decoding them -/

section Decoders

variable [Platform]

theorem stringField_of_sub {t : Node} {key : Key} {s : String}
    (h : t.sub [key] = .leaf (.string s)) : stringField t key = some s := by
  have hpresent : (t.sub [key]).Present := h ▸ PathTree.present_leaf _
  rw [stringField, Node.subscript, if_pos hpresent, h]
  rfl

/-- `getInterestedUsers` lists the user ids in key order. -/
theorem Interests.interestedUsers {t : Node} (h : Interests t) :
    interestedUsers t = .ok (userIds t) := by
  have hmapM : ∀ ks : List Key, (∀ k ∈ ks, k ∈ t.children) →
      (ks.mapM fun k => Node.asString "snap.value as! String" (t.sub [k])) =
        .ok (ks.filterMap (userIdAt t)) := by
    intro ks hks
    induction ks with
    | nil => rfl
    | cons k ks ih =>
        obtain ⟨-, uid, hsub⟩ := h.entries k (hks k List.mem_cons_self)
        have hone : Node.asString "snap.value as! String" (t.sub [k]) = .ok uid := by
          rw [hsub]
          rfl
        rw [List.mapM_cons, hone, ih fun k hk => hks k (List.mem_cons_of_mem _ hk),
          List.filterMap_cons_some (userIdAt_of_sub hsub)]
        rfl
  exact hmapM t.childKeys fun k hk => PathTree.mem_childKeys.mp hk

/-- `Post.init` lists the user ids in the order of the dictionary. -/
theorem Interests.interestedField {t : Node} (h : Interests (t.sub ["Interested"])) :
    ∃ ids, interestedField t = .ok ids ∧ ids ~ userIds (t.sub ["Interested"]) := by
  set d := t.sub ["Interested"] with hd
  by_cases hpresent : d.Present
  · have hsubscript : t.subscript "Interested" = some d := by
      simp [Node.subscript, ← hd, hpresent]
    obtain ⟨k, hk⟩ : ∃ k, k ∈ d.children := by
      obtain ⟨p, hp⟩ := PathTree.present_iff.mp hpresent
      cases p with
      | nil => simp [h.root] at hp
      | cons k p => exact ⟨k, PathTree.mem_children.mpr ⟨p, hp⟩⟩
    have hdict : Node.asDictionary? d = some d :=
      asDictionary?_eq_some.mpr (value_of_key hk (h.entries k hk).1)
    refine ⟨(Node.entries d).map fun entry => Platform.describing entry.2, ?_, ?_⟩
    · rw [MDBSocials.interestedField, hsubscript]
      simp only [Node.asDictionary, hdict]
      rfl
    · have hdescribing : ∀ k ∈ d.childKeys,
          some (Platform.describing (d.sub [k])) = userIdAt d k := by
        intro k hk
        obtain ⟨-, uid, hsub⟩ := h.entries k (PathTree.mem_childKeys.mp hk)
        rw [userIdAt_of_sub hsub, hsub, Platform.describing_string]
      calc (Node.entries d).map (fun entry => Platform.describing entry.2)
          ~ (d.childKeys.map fun k => (k, d.sub [k])).map
              fun entry => Platform.describing entry.2 := (entries_perm d).map _
        _ = d.childKeys.filterMap fun k => some (Platform.describing (d.sub [k])) := by
            rw [List.map_map]
            exact (congrFun List.filterMap_eq_map _).symm
        _ = userIds d := List.filterMap_congr hdescribing
  · have hsubscript : t.subscript "Interested" = none := by
      simp [Node.subscript, ← hd, hpresent]
    have hnone : d.childKeys = [] := by
      refine List.eq_nil_iff_forall_not_mem.mpr fun k hk => hpresent ?_
      exact PathTree.present_of_mem_children (PathTree.mem_childKeys.mp hk)
    have hids : userIds d = [] := by rw [userIds, hnone, List.filterMap_nil]
    refine ⟨[], ?_, by rw [hids]⟩
    rw [MDBSocials.interestedField, hsubscript]

/-- The decoder of the feed reads back a post's record. -/
theorem IsPost.fetchedPost {post : NewPost} {snap : DataSnapshot}
    (h : IsPost post snap.node) :
    ∃ p, fetchedPost snap = .ok p ∧ p.record = post.record snap.key ∧
      p.posterName = none ∧ p.image = none ∧
      p.interestedIds ~ userIds (snap.node.sub ["Interested"]) := by
  have hvalue : snap.node.value = .dictionary snap.node :=
    value_of_key (PathTree.mem_children_of_sub_eq_leaf h.name) (by decide)
  obtain ⟨ids, hids, hperm⟩ := h.interested.interestedField
  refine ⟨{ post.record snap.key with interestedIds := ids }, ?_, rfl, rfl, rfl, hperm⟩
  simp only [MDBSocials.fetchedPost, hvalue, Post.init, hids, stringField_of_sub h.name,
    stringField_of_sub h.pictureURL, stringField_of_sub h.posterId,
    stringField_of_sub h.description, stringField_of_sub h.date]
  rfl

/-- The decoder of users reads back a user's record. -/
theorem IsUser.userOfSnapshot {user : NewUser} {t : Node} (h : IsUser user t) (id : Uid) :
    userOfSnapshot id t = .ok
      { id := some id, name := user.name, username := user.username, email := user.email } := by
  have hdict : t.asDictionary? = some t := asDictionary?_eq_some.mpr
    (value_of_key (PathTree.mem_children_of_sub_eq_leaf h.name) (by decide))
  simp only [MDBSocials.userOfSnapshot, hdict, Option.bind_some, stringField_of_sub h.name,
    stringField_of_sub h.username, stringField_of_sub h.email]
  rfl

end Decoders

end MDBSocials
