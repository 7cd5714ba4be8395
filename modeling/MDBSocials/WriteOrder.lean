import MDBSocials.Lib.Reorder
import MDBSocials.Lib.Replica
import MDBSocials.ReferencePlatform
import MDBSocials.Schema

/-!
# The Order of Writes

The calls of `newPost` and `updateInterested` reach the server in an order that only has
to have each post in front of the interests in it. Each of them writes under a key of
its own, so the order does not show in the database, and no interest is lost.

## Main results

* `Write.commute`: two such writes commute unless one is an interest in the other.
* `sub_interested_applyWrites`: the interested users of a post are the old ones, if the
  post is not new, and those of the calls.
* `interests_complete`: all orders lead to one database, with one entry for each call
  besides those from before, and both decoders read the users of the calls back.
* `interests_before_calls`: an entry from before the calls is read with theirs.
-/

namespace MDBSocials

open scoped List

/-! ### Posts and interests -/

/-- The write makes the record of a post. -/
def Write.CreatesPost (postId : Key) : Write → Prop
  | .newPost key _ => key = postId
  | _ => False

instance (postId : Key) (w : Write) : Decidable (w.CreatesPost postId) := by
  rcases w <;> dsimp only [Write.CreatesPost] <;> infer_instance

/-- The key and the user of an interest in a post. -/
def Write.interestIn (postId : Key) : Write → Option (Key × Uid)
  | .updateInterested postId' key userId => if postId' = postId then some (key, userId) else none
  | _ => none

theorem Write.interestIn_eq_some {w : Write} {postId : Key} {e : Key × Uid} :
    w.interestIn postId = some e ↔ w = .updateInterested postId e.1 e.2 := by
  cases w with
  | updateInterested postId' key userId =>
      obtain ⟨key', userId'⟩ := e
      simp [Write.interestIn]
  | _ => simp [Write.interestIn]

/-- The first write is an interest in the post of the second. -/
def Write.Follows : Write → Write → Prop
  | .updateInterested postId _ _, .newPost key _ => key = postId
  | _, _ => False

instance (w w' : Write) : Decidable (w.Follows w') := by
  rcases w <;> rcases w' <;> dsimp only [Write.Follows] <;> infer_instance

theorem Write.follows_of_interestIn {w w' : Write} {postId : Key} {e : Key × Uid}
    (hw : w.interestIn postId = some e) (hw' : w'.CreatesPost postId) : w.Follows w' := by
  obtain rfl := Write.interestIn_eq_some.mp hw
  cases w' with
  | newPost key post => exact hw'
  | _ => exact hw'.elim

/-- The interests in a post among some writes. -/
def interestsIn (postId : Key) (ws : List Write) : List (Key × Uid) :=
  ws.filterMap (Write.interestIn postId)

theorem applyWrites_eq_foldl (db : Node) (ws : List Write) :
    applyWrites db ws = ws.foldl (fun t w => t.set w.path w.value) db := by
  induction ws using List.reverseRecOn with
  | nil => rfl
  | append_singleton ws w ih => rw [applyWrites_snoc, List.foldl_append, ih]; rfl

/-- Writes under different keys commute, unless one is an interest in the other's post. -/
theorem Write.commute {w w' : Write} {key key' : Key} (hw : w.autoKey = some key)
    (hw' : w'.autoKey = some key') (hne : key ≠ key') (h : ¬ w.Follows w')
    (h' : ¬ w'.Follows w) :
    Reorder.Commute (fun (t : Node) (x : Write) => t.set x.path x.value) w w' := by
  intro t
  have hpaths : ¬ w.path <+: w'.path ∧ ¬ w'.path <+: w.path := by
    cases w with
    | createNewUser => cases hw
    | newPost k post =>
        obtain rfl := Option.some.inj hw
        cases w' with
        | createNewUser => cases hw'
        | newPost k' post' =>
            obtain rfl := Option.some.inj hw'
            simp [Write.path, hne, hne.symm]
        | updateInterested p k' uid =>
            have hp : p ≠ k := fun hp => h' hp.symm
            simp [Write.path, hp, hp.symm]
    | updateInterested p k uid =>
        obtain rfl := Option.some.inj hw
        cases w' with
        | createNewUser => cases hw'
        | newPost k' post' =>
            have hp : p ≠ k' := fun hp => h hp.symm
            simp [Write.path, hp, hp.symm]
        | updateInterested p' k' uid' =>
            obtain rfl := Option.some.inj hw'
            simp [Write.path, hne, hne.symm]
  exact PathTree.set_comm hpaths.1 hpaths.2

/-! ### The interested users of a post -/

/-- A write changes the interested users of a post by making the post, or by adding a
user. -/
theorem sub_interested_write (db : Node) (w : Write) (postId : Key) :
    (db.set w.path w.value).sub ["Posts", postId, "Interested"] =
      if w.CreatesPost postId then .empty
      else match w.interestIn postId with
        | some (key, userId) =>
            (db.sub ["Posts", postId, "Interested"]).set [key] (.leaf (.string userId))
        | none => db.sub ["Posts", postId, "Interested"] := by
  cases w with
  | newPost key post =>
      by_cases hkey : key = postId
      · subst hkey
        have hbelow : (db.set ["Posts", key] post.node).sub ["Posts", key, "Interested"] =
            ((db.set ["Posts", key] post.node).sub ["Posts", key]).sub ["Interested"] :=
          (PathTree.sub_sub _ ["Posts", key] ["Interested"]).symm
        rw [if_pos (show (Write.newPost key post).CreatesPost key from rfl)]
        rw [Write.path, Write.value, hbelow, PathTree.sub_set_self, post.sub_interested]
      · rw [if_neg (show ¬ (Write.newPost key post).CreatesPost postId from hkey)]
        exact PathTree.sub_set_of_incomparable (by simpa [Write.path] using hkey)
          (by simp [Write.path, Ne.symm hkey])
  | createNewUser uid user =>
      exact PathTree.sub_set_of_incomparable (by simp [Write.path]) (by simp [Write.path])
  | updateInterested postId' key userId =>
      rw [if_neg (show ¬ (Write.updateInterested postId' key userId).CreatesPost postId from id)]
      by_cases hpost : postId' = postId
      · subst hpost
        have hadd := PathTree.sub_set_append db ["Posts", postId', "Interested"] [key]
          (.leaf (.string userId))
        simpa [Write.interestIn, Write.path, Write.value] using hadd
      · rw [Write.interestIn, if_neg hpost]
        exact PathTree.sub_set_of_incomparable (by simp [Write.path, hpost])
          (by simp [Write.path, Ne.symm hpost])

theorem interestsIn_snoc (postId : Key) (ws : List Write) (w : Write) :
    interestsIn postId (ws ++ [w]) =
      interestsIn postId ws ++ (w.interestIn postId).toList := by
  rw [interestsIn, List.filterMap_append]
  cases h : w.interestIn postId <;> simp [h, interestsIn]

/-- The node with entries added. -/
def addInterests (t : Node) (es : List (Key × Uid)) : Node :=
  es.foldl (fun t e => t.set [e.1] (.leaf (.string e.2))) t

/-- What is there of a post's interested users before the calls among `ws`: nothing when
one of them makes the post. -/
def oldInterests (db : Node) (ws : List Write) (postId : Key) : Node :=
  if ∃ w ∈ ws, w.CreatesPost postId then .empty else db.sub ["Posts", postId, "Interested"]

theorem oldInterests_snoc (db : Node) (ws : List Write) (w : Write) (postId : Key) :
    oldInterests db (ws ++ [w]) postId =
      if w.CreatesPost postId then .empty else oldInterests db ws postId := by
  by_cases hw : w.CreatesPost postId
  · rw [if_pos hw, oldInterests, if_pos ⟨w, by simp, hw⟩]
  · have hiff : (∃ x ∈ ws ++ [w], x.CreatesPost postId) ↔ ∃ x ∈ ws, x.CreatesPost postId := by
      simp [or_and_right, exists_or, hw]
    rw [if_neg hw, oldInterests, oldInterests]
    simp only [hiff]

/-- **The interested users** of a post after calls in an order that has the post in front
of the interests in it. -/
theorem sub_interested_applyWrites {db : Node} {ws : List Write}
    (h : Reorder.Respects Write.Follows ws) (postId : Key) :
    (applyWrites db ws).sub ["Posts", postId, "Interested"] =
      addInterests (oldInterests db ws postId) (interestsIn postId ws) := by
  induction ws using List.reverseRecOn with
  | nil => simp [oldInterests, interestsIn, addInterests]
  | append_singleton ws w ih =>
      obtain ⟨hws, -, hlast⟩ := List.pairwise_append.mp h
      rw [applyWrites_snoc, sub_interested_write, ih hws, interestsIn_snoc, oldInterests_snoc]
      by_cases hcreates : w.CreatesPost postId
      · -- no interest in the post came before
        have hnone : interestsIn postId ws = [] := by
          refine List.filterMap_eq_nil_iff.mpr fun x hx => ?_
          cases hin : x.interestIn postId with
          | none => rfl
          | some e =>
              have hfollows := Write.follows_of_interestIn hin hcreates
              exact absurd hfollows (hlast x hx w (List.mem_singleton_self w))
        have hself : w.interestIn postId = none := by
          cases w with
          | newPost => rfl
          | _ => exact hcreates.elim
        simp [hcreates, hnone, hself, addInterests]
      · rw [if_neg hcreates, if_neg hcreates]
        cases hin : w.interestIn postId with
        | none => simp
        | some e => simp [addInterests]

/-- The entries of `t` are those of `old` and `es`. -/
structure Added (old : Node) (es : List (Key × Uid)) (t : Node) : Prop where
  keys : t.childKeys ~ old.childKeys ++ es.map Prod.fst
  added : ∀ e ∈ es, t.sub [e.1] = .leaf (.string e.2)
  kept : ∀ k ∈ old.childKeys, t.sub [k] = old.sub [k]
  users : userIds t ~ userIds old ++ es.map Prod.snd

theorem addInterests_snoc (t : Node) (es : List (Key × Uid)) (e : Key × Uid) :
    addInterests t (es ++ [e]) = (addInterests t es).set [e.1] (.leaf (.string e.2)) := by
  simp [addInterests]

theorem mem_children_addInterests {old : Node} {es : List (Key × Uid)} {k : Key} :
    k ∈ (addInterests old es).children ↔ k ∈ old.children ∨ k ∈ es.map Prod.fst := by
  induction es using List.reverseRecOn with
  | nil => simp [addInterests]
  | append_singleton es e ih =>
      rw [addInterests_snoc, PathTree.children_set_cons (PathTree.present_leaf _),
        Finset.mem_insert, ih]
      simp [or_left_comm, or_comm]

theorem Added.perm {old t : Node} {es es' : List (Key × Uid)} (h : Added old es t)
    (hes : es ~ es') : Added old es' t where
  keys := h.keys.trans ((hes.map _).append_left _)
  added e he := h.added e (hes.symm.subset he)
  kept := h.kept
  users := h.users.trans ((hes.map _).append_left _)

/-- Entries under new keys are added to the others. -/
theorem added_addInterests {old : Node} {es : List (Key × Uid)}
    (hnodup : (es.map Prod.fst).Nodup) (hnew : ∀ e ∈ es, e.1 ∉ old.children) :
    Added old es (addInterests old es) := by
  induction es using List.reverseRecOn with
  | nil => exact ⟨by simp [addInterests], nofun, fun k _ => rfl, by simp [addInterests]⟩
  | append_singleton es e ih =>
      rw [List.map_append, List.map_singleton] at hnodup
      obtain ⟨hes, -, hdisj⟩ := List.nodup_append'.mp hnodup
      have hkey : e.1 ∉ es.map Prod.fst := fun h => hdisj h (List.mem_singleton_self _)
      have h := ih hes fun x hx => hnew x (List.mem_append_left _ hx)
      have hfresh : e.1 ∉ (addInterests old es).children := fun hmem =>
        (mem_children_addInterests.mp hmem).elim (hnew e (by simp)) hkey
      rw [addInterests_snoc]
      set t := addInterests old es
      refine ⟨?_, fun x hx => ?_, fun k hk => ?_, ?_⟩
      · calc (t.set [e.1] (.leaf (.string e.2))).childKeys ~ e.1 :: t.childKeys :=
            PathTree.childKeys_set_cons hfresh [] (PathTree.present_leaf _)
          _ ~ e.1 :: (old.childKeys ++ es.map Prod.fst) := h.keys.cons _
          _ ~ old.childKeys ++ (es ++ [e]).map Prod.fst := by
            rw [List.map_append, ← List.append_assoc]
            exact (List.perm_append_singleton _ _).symm
      · rw [PathTree.sub_set_cons]
        rcases List.mem_append.mp hx with hx | hx
        · rw [if_neg fun heq : x.1 = e.1 => hkey (heq ▸ List.mem_map_of_mem hx)]
          exact h.added x hx
        · obtain rfl := List.mem_singleton.mp hx
          simp
      · have hne : k ≠ e.1 := fun heq =>
          hnew e (by simp) (heq ▸ PathTree.mem_childKeys.mp hk)
        rw [PathTree.sub_set_cons, if_neg hne]
        exact h.kept k hk
      · calc userIds (t.set [e.1] (.leaf (.string e.2))) ~ e.2 :: userIds t :=
            userIds_set hfresh e.2
          _ ~ e.2 :: (userIds old ++ es.map Prod.snd) := h.users.cons _
          _ ~ userIds old ++ (es ++ [e]).map Prod.snd := by
            rw [List.map_append, ← List.append_assoc]
            exact (List.perm_append_singleton _ _).symm

/-- User ids under keys that `childByAutoId` made keep the shape of the node. -/
theorem Interests.addInterests {old : Node} (h : Interests old) {es : List (Key × Uid)}
    (hkeys : ∀ e ∈ es, integerLike e.1 = false) : Interests (addInterests old es) := by
  induction es using List.reverseRecOn with
  | nil => exact h
  | append_singleton es e ih =>
      rw [addInterests_snoc]
      exact (ih fun x hx => hkeys x (List.mem_append_left _ hx)).set (hkeys e (by simp)) e.2

/-- Whatever writes have made the database, its posts' interested users have this shape. -/
theorem interests_applyWrites {ws : List Write}
    (hkeys : ∀ key ∈ ws.filterMap Write.autoKey, integerLike key = false) (postId : Key) :
    Interests ((applyWrites .empty ws).sub ["Posts", postId, "Interested"]) := by
  induction ws using List.reverseRecOn with
  | nil => exact Interests.empty
  | append_singleton ws w ih =>
      have hws := ih fun key hkey => hkeys key (by simp [hkey])
      rw [applyWrites_snoc, sub_interested_write]
      split
      · exact Interests.empty
      · cases w with
        | updateInterested postId' key userId =>
            by_cases hpost : postId' = postId
            · have hkey : integerLike key = false := hkeys key (by simp [Write.autoKey])
              simpa [Write.interestIn, hpost] using hws.set hkey userId
            · simpa [Write.interestIn, hpost] using hws
        | _ => exact hws

/-! ### All orders -/

/-- The writes that calls of `newPost` and `updateInterested` make. -/
inductive IsCall [Platform] : Write → Prop
  | newPost (currentUser : Option Uid) {name description pictureURL : String}
      (date : Platform.Date) {key : Key} {w : Write}
      (h : newPost currentUser name description pictureURL date key = .ok w) : IsCall w
  | updateInterested (postId : Key) (userId : Uid) (key : Key) :
      IsCall (updateInterested postId userId key)

/-- Each call makes a key. -/
theorem IsCall.autoKey [Platform] {w : Write} (h : IsCall w) : ∃ key, w.autoKey = some key := by
  cases h with
  | @newPost currentUser _ _ _ _ key _ h =>
      obtain ⟨posterId, -, h⟩ := bind_eq_ok.mp h
      exact ⟨key, Except.ok.inj h ▸ rfl⟩
  | updateInterested postId userId key => exact ⟨key, rfl⟩

/-- A collection of calls of `newPost` and `updateInterested` that can be made in a state
of the database: their keys are new, different, and not integer-like. -/
structure Calls [Platform] (db : Node) (ws : List Write) : Prop where
  calls : ∀ w ∈ ws, IsCall w
  different : (ws.filterMap Write.autoKey).Nodup
  notIntegerLike : ∀ key ∈ ws.filterMap Write.autoKey, integerLike key = false
  new : ∀ postId, ∀ e ∈ interestsIn postId ws,
    e.1 ∉ (db.sub ["Posts", postId, "Interested"]).children

theorem keys_interestsIn_sublist (postId : Key) (ws : List Write) :
    ((interestsIn postId ws).map Prod.fst).Sublist (ws.filterMap Write.autoKey) := by
  refine Replica.map_filterMap_sublist (fun w e he => ?_) ws
  obtain rfl := Write.interestIn_eq_some.mp he
  rfl

@[simp] theorem oldInterests_empty (ws : List Write) (postId : Key) :
    oldInterests .empty ws postId = .empty := by
  rw [oldInterests]
  split <;> rfl

theorem oldInterests_perm {db : Node} {us ws : List Write} (h : us ~ ws) (postId : Key) :
    oldInterests db us postId = oldInterests db ws postId := by
  simp only [oldInterests, h.mem_iff]

/-- Different calls of a collection commute unless one is an interest in the other. -/
theorem Calls.commute [Platform] {db : Node} {ws : List Write} (h : Calls db ws) {w w' : Write}
    (hw : w ∈ ws) (hw' : w' ∈ ws) (hne : w ≠ w') (hfollows : ¬ w.Follows w')
    (hfollows' : ¬ w'.Follows w) :
    Reorder.Commute (fun (t : Node) (x : Write) => t.set x.path x.value) w w' := by
  obtain ⟨key, hkey⟩ := (h.calls w hw).autoKey
  obtain ⟨key', hkey'⟩ := (h.calls w' hw').autoKey
  refine Write.commute hkey hkey' (fun heq => hne ?_) hfollows hfollows'
  exact Replica.eq_of_nodup_filterMap h.different hw hw' hkey (heq ▸ hkey')

/-- The entries of a post after calls in an order that respects their needs. -/
theorem Calls.added [Platform] {db : Node} {us ws : List Write} (h : Calls db ws) (hus : us ~ ws)
    (hrespects : Reorder.Respects Write.Follows us) (postId : Key) :
    Added (oldInterests db ws postId) (interestsIn postId ws)
        ((applyWrites db us).sub ["Posts", postId, "Interested"]) := by
  have hnodup : ((interestsIn postId us).map Prod.fst).Nodup :=
    ((hus.symm.filterMap _).nodup h.different).sublist (keys_interestsIn_sublist postId us)
  have hnew : ∀ e ∈ interestsIn postId us, e.1 ∉ (oldInterests db ws postId).children := by
    intro e he
    rw [oldInterests]
    split
    · simp
    · exact h.new postId e ((hus.filterMap _).subset he)
  rw [sub_interested_applyWrites hrespects, oldInterests_perm hus]
  exact (added_addInterests hnodup hnew).perm (hus.filterMap _)

section Decoders

variable [Platform]

/-- **No interest is lost, and the two readers agree.** All orders of a collection of
calls that have each post in front of the interests in it lead to the same database. In
it, a post's interested users are those it had, if it is not one of the new posts, and
exactly one entry for each call; both decoders return them up to order. -/
theorem interests_complete {db : Node} {ws us vs : List Write} (h : Calls db ws)
    (hus : us ~ ws) (hvs : vs ~ ws) (hus' : Reorder.Respects Write.Follows us)
    (hvs' : Reorder.Respects Write.Follows vs) :
    applyWrites db us = applyWrites db vs ∧ ∀ postId,
      Added (oldInterests db ws postId) (interestsIn postId ws)
        ((applyWrites db us).sub ["Posts", postId, "Interested"]) ∧
      (Interests (oldInterests db ws postId) → ∃ ids post,
        interestedUsers ((applyWrites db us).sub ["Posts", postId, "Interested"]) = .ok ids ∧
        Post.init postId (some ((applyWrites db us).sub ["Posts", postId])) = .ok post ∧
        ids ~ userIds (oldInterests db ws postId) ++ (interestsIn postId ws).map Prod.snd ∧
        post.interestedIds ~
          userIds (oldInterests db ws postId) ++ (interestsIn postId ws).map Prod.snd) := by
  refine ⟨?_, fun postId => ⟨h.added hus hus' postId, fun hold => ?_⟩⟩
  · rw [applyWrites_eq_foldl, applyWrites_eq_foldl]
    exact hus'.foldl_eq hvs' (hus.trans hvs.symm) (fun w hw w' hw' hne hf hf' =>
      h.commute (hus.subset hw) (hus.subset hw') hne hf hf') db
  · have hadded := h.added hus hus' postId
    set t := (applyWrites db us).sub ["Posts", postId, "Interested"] with ht
    have hshape : Interests t := by
      rw [ht, sub_interested_applyWrites hus', oldInterests_perm hus]
      refine hold.addInterests fun e he => h.notIntegerLike e.1 ?_
      exact (keys_interestsIn_sublist postId ws).subset
        (List.mem_map_of_mem ((hus.filterMap _).subset he))
    have hbelow : ((applyWrites db us).sub ["Posts", postId]).sub ["Interested"] = t :=
      PathTree.sub_sub ..
    obtain ⟨ids, hids, hperm⟩ :=
      Interests.interestedField (t := (applyWrites db us).sub ["Posts", postId])
        (hbelow.symm ▸ hshape)
    obtain ⟨post, hpost, rfl⟩ := Post.init_of_interested hids postId
    exact ⟨userIds t, post, hshape.interestedUsers, hpost, hadded.users,
      hperm.trans (hbelow.symm ▸ hadded.users)⟩

end Decoders

/-! ### Two orders -/

section Example

attribute [local instance] Platform.reference

/-- A post that Ann and Bob are interested in, and a second one that Bob is. -/
def partyCalls : List Write :=
  [.newPost "-L0" ⟨"Party", "url", "ann", "at nine", "Feb 21, 9:00 PM"⟩,
    .updateInterested "-L0" "-K0" "ann", .updateInterested "-L0" "-K1" "bob",
    .newPost "-L1" ⟨"Picnic", "url", "bob", "at noon", "Feb 22, 12:00 PM"⟩,
    .updateInterested "-L1" "-K2" "bob"]

/-- The same calls, from the second post to the first, and from Bob to Ann. -/
def partyCallsReordered : List Write :=
  partyCalls.drop 3 ++ partyCalls.take 1 ++ [partyCalls[2], partyCalls[1]]

theorem interests_complete_party :
    applyWrites .empty partyCalls = applyWrites .empty partyCallsReordered ∧ ∃ ids post,
      interestedUsers ((applyWrites .empty partyCalls).sub ["Posts", "-L0", "Interested"]) =
        .ok ids ∧
      Post.init "-L0" (some ((applyWrites .empty partyCalls).sub ["Posts", "-L0"])) = .ok post ∧
      ids ~ ["ann", "bob"] ∧ post.interestedIds ~ ["ann", "bob"] := by
  have hcalls : Calls .empty partyCalls := by
    refine ⟨?_, by decide, by decide, fun postId e _ => by simp [PathTree.mem_children]⟩
    simp only [partyCalls, List.forall_mem_cons]
    exact ⟨.newPost (some "ann") "Feb 21, 9:00 PM" rfl,
      .updateInterested .., .updateInterested ..,
      .newPost (some "bob") "Feb 22, 12:00 PM" rfl,
      .updateInterested .., nofun⟩
  obtain ⟨hsame, hall⟩ := interests_complete hcalls (List.Perm.refl partyCalls)
    (show partyCallsReordered ~ partyCalls by decide) (by decide) (by decide)
  have hold : Interests (oldInterests .empty partyCalls "-L0") := by
    rw [oldInterests_empty]
    exact Interests.empty
  obtain ⟨ids, post, hids, hpost, hperm, hperm'⟩ := (hall "-L0").2 hold
  rw [oldInterests_empty] at hperm hperm'
  exact ⟨hsame, ids, post, hids, hpost, hperm, hperm'⟩

/-- A party in which Zoe has been interested since before. -/
def zoesParty : Node :=
  applyWrites .empty [.newPost "-L0" ⟨"Party", "url", "ann", "at nine", "Feb 21, 9:00 PM"⟩,
    updateInterested "-L0" "zoe" "-K9"]

/-- What was there before the calls stays there: one call, and two entries. -/
theorem interests_before_calls :
    Calls zoesParty [updateInterested "-L0" "ann" "-K0"] ∧
    ∃ t, t = applyWrites zoesParty [updateInterested "-L0" "ann" "-K0"] ∧
      (t.sub ["Posts", "-L0", "Interested"]).childKeys = ["-K0", "-K9"] ∧
      (interestedUsers (t.sub ["Posts", "-L0", "Interested"])).toOption = some ["ann", "zoe"] ∧
      (Post.init "-L0" (some (t.sub ["Posts", "-L0"]))).toOption.map Post.interestedIds =
        some ["zoe", "ann"] := by
  refine ⟨⟨List.forall_mem_singleton.mpr (.updateInterested ..), by decide, by decide, ?_⟩,
    _, rfl, by decide, by decide, by decide⟩
  intro postId e he
  obtain ⟨w, hw, hin⟩ := List.mem_filterMap.mp he
  obtain rfl := List.mem_singleton.mp hw
  obtain ⟨rfl, hkey, -⟩ : "-L0" = postId ∧ "-K0" = e.1 ∧ "ann" = e.2 := by
    simpa [updateInterested] using Write.interestIn_eq_some.mp hin
  rw [← hkey]
  decide

end Example

end MDBSocials
