import MDBSocials.Forms
import MDBSocials.PosterRecords

/-!
# Accounts and Their Records

User ids are everywhere in the database: as the posters of posts, as the users interested in
them and as the keys of user records. They all come from `getCurrentUser()`, at the moment of
the write. `signUp` has an account made for what was typed, and writes the record when its
completion runs, under the id of whoever is signed in by then.

## Main results

* `AccountsInv.step`: every session and every id in a write is that of an account.
* `ids_have_accounts`: so is every id in the database, whatever is refused or lost.
* `records_as_signed_up`: the record of every account is the one that was submitted with the
  sign-up that made it, exactly as long as each sign-up completes in the session of the
  account that was made for it.
-/

namespace MDBSocials

/-! ### Sessions -/

namespace App

variable [Platform]

/-- What an action does to the session. -/
theorem step_currentUser {s t : App} {a : Action} (h : s.step a = some t) :
    t.currentUser = s.currentUser ∨
    (∃ revoked, (a = .logOut true revoked ∨ a = .sessionLoss revoked) ∧ t.currentUser = none) ∨
    ∃ uid, (a = .signInReply uid true ∨ a = .userCreated uid) ∧ t.currentUser = some uid := by
  by_cases ha : a.concernsFeed
  · cases a with
    | viewWillAppear =>
        obtain rfl := Option.some.inj h
        refine Or.inl ?_
        rw [viewWillAppear]
        split
        · rfl
        · split <;> rfl
    | logOut signOut revoked =>
        obtain rfl := Option.some.inj h
        cases signOut with
        | false => exact Or.inl rfl
        | true =>
            exact Or.inr (Or.inl ⟨revoked, Or.inl rfl, (endSession_frame _ revoked).2.2.2.2.1⟩)
    | sessionLoss revoked =>
        obtain rfl := Option.some.inj h
        exact Or.inr (Or.inl ⟨revoked, Or.inr rfl, (endSession_frame s revoked).2.2.2.2.1⟩)
    | signInReply uid succeeded =>
        obtain ⟨-, h⟩ := Option.ite_none_right_eq_some.mp (step_eq_some.mp h)
        obtain rfl := Except.ok.inj (Option.some.inj h)
        cases succeeded with
        | false => exact Or.inl rfl
        | true => exact Or.inr (Or.inr ⟨uid, Or.inl rfl, rfl⟩)
    | userCreated uid =>
        obtain rfl := Option.some.inj h
        exact Or.inr (Or.inr ⟨uid, Or.inr rfl, rfl⟩)
    | viewChanged view =>
        obtain rfl := Option.some.inj h
        exact Or.inl rfl
    | deliver i =>
        obtain ⟨o, snap, queue, post, hd⟩ := step_deliver h
        exact Or.inl hd.currentUser
    | _ => cases ha
  · exact Or.inl (step_sameFeed (Bool.not_eq_true _ ▸ ha) h).currentUser

end App

/-! ### The ids in the database -/

/-- The user id in a write. -/
def Write.uid : Write → Uid
  | .newPost _ post => post.posterId
  | .createNewUser uid _ => uid
  | .updateInterested _ _ userId => userId

/-- The database mentions a user: as the poster of a post, as interested in one, or with a
record. -/
inductive Mentions (t : Node) (uid : Uid) : Prop
  | poster {key : Key} (h : t.get ["Posts", key, "posterId"] = some (.string uid))
  | interested {postId key : Key}
      (h : t.get ["Posts", postId, "Interested", key] = some (.string uid))
  | record (h : uid ∈ (t.sub ["User"]).children)

theorem mentions_empty {uid : Uid} : ¬ Mentions .empty uid := by
  rintro (h | h | h) <;> cases h

theorem children_users_set (t : Node) (uid : Uid) (user : NewUser) :
    ((t.set ["User", uid] user.node).sub ["User"]).children =
      insert uid (t.sub ["User"]).children := by
  have hpath := PathTree.sub_set_append t ["User"] [uid] user.node
  have hpresent : user.node.Present := PathTree.present_of_mem_children
    (PathTree.mem_children_of_sub_eq_leaf user.isUser_node.name)
  rw [show ["User", uid] = ["User"] ++ [uid] from rfl, hpath, PathTree.children_set_cons hpresent]

/-- What a write puts below its path, where a user id can be, is the id of the write. -/
theorem Write.uid_of_value {w : Write} {uid : Uid} {p : Path} (hpath : w.path <+: p)
    (hp : (∃ key, p = ["Posts", key, "posterId"]) ∨
      ∃ postId key, p = ["Posts", postId, "Interested", key])
    (hget : w.value.get (p.drop w.path.length) = some (.string uid)) : w.uid = uid := by
  cases w with
  | newPost key post =>
      have hpost := post.isPost_node
      rcases hp with ⟨key, rfl⟩ | ⟨postId, key, rfl⟩
      · have hposter : some (Scalar.string post.posterId) = some (.string uid) :=
          (get_of_sub_eq_leaf hpost.posterId).symm.trans hget
        exact Scalar.string.inj (Option.some.inj hposter)
      · -- a new post has no interested users
        have hnone : (post.node.sub ["Interested"]).get [key] = some (.string uid) := hget
        rw [post.sub_interested] at hnone
        cases hnone
  | createNewUser uid' user =>
      rcases hp with ⟨key, rfl⟩ | ⟨postId, key, rfl⟩ <;>
        simp [Write.path, List.cons_prefix_cons] at hpath
  | updateInterested postId' key' uid' =>
      rcases hp with ⟨key, rfl⟩ | ⟨postId, key, rfl⟩
      · simp [Write.path, List.cons_prefix_cons] at hpath
      · exact Scalar.string.inj (Option.some.inj hget)

/-- A user that a write makes the database mention is that of the write. -/
theorem Mentions.of_write {t : Node} {w : Write} {uid : Uid}
    (h : Mentions (t.set w.path w.value) uid) : Mentions t uid ∨ w.uid = uid := by
  cases h with
  | poster h =>
      rw [PathTree.get_set] at h
      split at h
      · rename_i hpath
        exact Or.inr (Write.uid_of_value hpath (Or.inl ⟨_, rfl⟩) h)
      · split at h
        · cases h
        · exact Or.inl (.poster h)
  | interested h =>
      rw [PathTree.get_set] at h
      split at h
      · rename_i hpath
        exact Or.inr (Write.uid_of_value hpath (Or.inr ⟨_, _, rfl⟩) h)
      · split at h
        · cases h
        · exact Or.inl (.interested h)
  | record h =>
      cases w with
      | createNewUser uid' user =>
          rw [Write.path, Write.value, children_users_set] at h
          exact (Finset.mem_insert.mp h).symm.imp .record Eq.symm
      | newPost key post =>
          rw [Write.path, PathTree.sub_set_of_incomparable (by simp) (by simp)] at h
          exact Or.inl (.record h)
      | updateInterested postId key uid' =>
          rw [Write.path, PathTree.sub_set_of_incomparable (by simp) (by simp)] at h
          exact Or.inl (.record h)

/-- **Who is mentioned** was in a write. -/
theorem Mentions.exists_write {us : List Write} {uid : Uid}
    (h : Mentions (applyWrites .empty us) uid) : ∃ w ∈ us, w.uid = uid := by
  induction us using List.reverseRecOn with
  | nil => exact (mentions_empty h).elim
  | append_singleton us w ih =>
      rw [applyWrites_snoc] at h
      rcases h.of_write with h | h
      · obtain ⟨x, hx, huid⟩ := ih h
        exact ⟨x, List.mem_append_left _ hx, huid⟩
      · exact ⟨w, List.mem_append_right _ (List.mem_singleton_self w), h⟩

/-! ### The records of users -/

/-- A record is that of one user. -/
theorem IsUser.unique {user user' : NewUser} {t : Node} (h : IsUser user t)
    (h' : IsUser user' t) : user = user' := by
  obtain ⟨name, username, email⟩ := user
  obtain ⟨name', username', email'⟩ := user'
  obtain rfl : name = name' := leaf_string_injective (h.name.symm.trans h'.name)
  obtain rfl : username = username' := leaf_string_injective (h.username.symm.trans h'.username)
  obtain rfl : email = email' := leaf_string_injective (h.email.symm.trans h'.email)
  rfl

/-- The record of a user is one that a write put there. -/
theorem recordOf_applyWrites {us : List Write} {uid : Uid}
    (h : uid ∈ ((applyWrites .empty us).sub ["User"]).children) :
    ∃ user, .createNewUser uid user ∈ us ∧
      IsUser user ((applyWrites .empty us).sub ["User", uid]) := by
  induction us using List.reverseRecOn with
  | nil => cases h
  | append_singleton us w ih =>
      have hold : uid ∈ ((applyWrites .empty us).sub ["User"]).children →
          ¬ w.CreatesUser uid → ∃ user, .createNewUser uid user ∈ us ++ [w] ∧
            IsUser user ((applyWrites .empty (us ++ [w])).sub ["User", uid]) := by
        intro hchild hw
        obtain ⟨user, huser, hrec⟩ := ih hchild
        refine ⟨user, List.mem_append_left _ huser, ?_⟩
        rw [applyWrites_snoc, sub_user_write hw]
        exact hrec
      rw [applyWrites_snoc] at h
      cases w with
      | createNewUser uid' user =>
          by_cases huid : uid' = uid
          · subst huid
            refine ⟨user, List.mem_append_right _ (List.mem_singleton_self _), ?_⟩
            rw [applyWrites_snoc, Write.path, Write.value, PathTree.sub_set_self]
            exact user.isUser_node
          · rw [Write.path, Write.value, children_users_set] at h
            exact hold ((Finset.mem_insert.mp h).resolve_left (Ne.symm huid)) huid
      | newPost | updateInterested =>
          rw [Write.path, PathTree.sub_set_of_incomparable (by simp) (by simp)] at h
          exact hold h id

namespace World

variable [Platform] {ι : Type} {w w' : World ι} {c : ι} {a : ClientAction}

/-! ### Ids and accounts -/

/-- Whoever is signed in somewhere or in a write has an account. -/
structure AccountsInv (w : World ι) : Prop where
  sessions : ∀ c uid, (w.clients c).app.currentUser = some uid → uid ∈ w.accounts
  writes : ∀ x, w.db.Issued x → x.uid ∈ w.accounts

theorem accountsInv_initial : AccountsInv (initial : World ι) where
  sessions c uid h := by cases h
  writes x hx := by rcases hx with hx | ⟨c, hx⟩ <;> cases hx

variable [DecidableEq ι]

theorem Step.accounts_subset (h : Step w c a w') : w.accounts ⊆ w'.accounts := by
  cases h with
  | accountCreated => exact List.subset_cons_self _ _
  | _ => exact List.Subset.refl _

/-- **What a step does to the session** of its device: it keeps it, ends it, or begins that
of an account. -/
theorem Step.session (h : Step w c a w') :
    (w'.app c).currentUser = (w.app c).currentUser ∨
    (∃ revoked, (a = .feed (.logOut true revoked) ∨ a = .feed (.sessionLoss revoked)) ∧
      (w'.app c).currentUser = none) ∨
    ∃ uid, (a = .feed (.signInReply uid true) ∨ ∃ i, a = .accountCreated i uid) ∧
      (w'.app c).currentUser = some uid ∧ uid ∈ w'.accounts := by
  cases h with
  | @feed b a' app hinput happ =>
      have hself : (w.setApp c app).app c = app := by simp [setApp]
      rw [hself]
      rcases App.step_currentUser happ with hsame | ⟨revoked, ha', hnone⟩ | ⟨uid, ha', huid⟩
      · exact Or.inl hsame
      · refine Or.inr (Or.inl ⟨revoked, ?_, hnone⟩)
        cases b with
        | logOut | sessionLoss =>
            obtain rfl := Option.some.inj hinput
            simpa using ha'
        | signInReply =>
            obtain ⟨-, hinput⟩ := Option.ite_none_right_eq_some.mp hinput
            obtain rfl := Option.some.inj hinput
            rcases ha' with ha' | ha' <;> cases ha'
        | _ =>
            obtain rfl := Option.some.inj hinput
            rcases ha' with ha' | ha' <;> cases ha'
      · obtain ⟨rfl, haccount⟩ := input_signsIn hinput ha'
        exact Or.inr (Or.inr ⟨uid, Or.inl rfl, huid, haccount⟩)
  | @tappedInterested key det write app hkey hd henabled happ =>
      have hsame := (App.sameFeed_tappedInterested hd happ).currentUser
      refine Or.inl (Eq.trans ?_ hsame)
      simp [World.issue, World.refresh, setApp, World.app, App.viewChanged]
  | @accountCreated i uid user hfresh =>
      refine Or.inr (Or.inr ⟨uid, Or.inr ⟨i, rfl⟩, ?_, List.mem_cons_self⟩)
      simp [App.userCreated]
  | terminate | trapped =>
      exact Or.inl (by simp [World.terminate, World.trapped, World.app, App.launch])
  | arrive => exact Or.inl rfl
  | _ =>
      exact Or.inl (by simp [World.issue, World.refresh, setApp, World.app, App.viewChanged])

/-- A session is that of before, or of an account. -/
theorem Step.currentUser (h : Step w c a w') {d : ι} {uid : Uid}
    (huid : (w'.clients d).app.currentUser = some uid) :
    (w.clients d).app.currentUser = some uid ∨ uid ∈ w'.accounts := by
  by_cases hd : d = c
  · subst hd
    rcases h.session with hsame | ⟨-, -, hnone⟩ | ⟨uid', -, huid', haccount⟩
    · exact Or.inl (hsame ▸ huid)
    · cases hnone.symm.trans huid
    · exact Or.inr (Option.some.inj (huid'.symm.trans huid) ▸ haccount)
  · exact Or.inl (h.clients_of_ne hd ▸ huid)

omit [DecidableEq ι] in
/-- A write carries the id of whoever is signed in. -/
theorem Issues.uid {x : Write} (h : Issues w c a x) :
    (w.clients c).app.currentUser = some x.uid := by
  cases h <;> assumption

/-- **Ids stay those of accounts** in every step. -/
theorem AccountsInv.step (h : AccountsInv w) (hst : Step w c a w') : AccountsInv w' := by
  have haccounts := hst.accounts_subset
  refine ⟨fun d uid huid => ?_, fun x hx => ?_⟩
  · exact (hst.currentUser huid).elim (fun hold => haccounts (h.sessions d uid hold)) id
  · exact (hst.db.issued hx).elim (fun hold => haccounts (h.writes x hold))
      fun hissues => haccounts (h.sessions c x.uid hissues.uid)

/-- **Every id has an account.** In every run of any number of devices, whatever is refused,
lost or interrupted, the users that are signed in and those that the database mentions, at
the server or in the view of a device, have accounts. -/
theorem ids_have_accounts {as : List (ι × ClientAction)} (hrun : machine.run initial as = some w)
    (uid : Uid) : (Mentions w.serverTree uid → uid ∈ w.accounts) ∧
      ∀ c, (Mentions (w.localView c) uid → uid ∈ w.accounts) ∧
        ((w.app c).currentUser = some uid → uid ∈ w.accounts) := by
  have hw : AccountsInv w := Machine.run_invariant
    (fun _ _ _ hw hst => hw.step (step_cases hst)) accountsInv_initial hrun
  refine ⟨fun h => ?_, fun c => ⟨fun h => ?_, hw.sessions c uid⟩⟩
  · obtain ⟨x, hx, rfl⟩ := h.exists_write
    exact hw.writes x (Or.inl hx)
  · obtain ⟨x, hx, rfl⟩ := h.exists_write
    exact hw.writes x (Replica.issued_of_mem_viewSeq hx)

/-! ### Records and sign-ups -/

/-- The accounts made so far, each with what was submitted. -/
def noteAccount (w : World ι) (a : ι × ClientAction) (_ : World ι)
    (made : List (Uid × NewUser)) : List (Uid × NewUser) :=
  match a.2 with
  | .accountCreated i uid =>
      ((w.clients a.1).signUps[i]?.map fun user => (uid, user)).toList ++ made
  | _ => made

/-- A sign-up completes in the session of the account that was made for it. -/
def InOwnSession (x : World ι × List (Uid × NewUser)) : ι × ClientAction → Prop
  | (c, .signUpSucceeds i) => ∀ user ∈ (x.1.clients c).signedUp[i]?,
      ∀ uid ∈ (x.1.app c).currentUser, (uid, user) ∈ x.2
  | _ => True

instance (x : World ι × List (Uid × NewUser)) (a : ι × ClientAction) :
    Decidable (InOwnSession x a) := by
  obtain ⟨c, a⟩ := a
  rcases a <;> dsimp only [InOwnSession] <;> infer_instance

/-- The user records in a tree are those that were submitted for their accounts. -/
def RecordsAsSignedUp (made : List (Uid × NewUser)) (t : Node) : Prop :=
  ∀ uid ∈ (t.sub ["User"]).children, ∃ user, (uid, user) ∈ made ∧ IsUser user (t.sub ["User", uid])

omit [Platform] in
theorem RecordsAsSignedUp.of_writes {made : List (Uid × NewUser)} {us : List Write}
    (h : ∀ uid user, .createNewUser uid user ∈ us → (uid, user) ∈ made) :
    RecordsAsSignedUp made (applyWrites .empty us) := by
  intro uid huid
  obtain ⟨user, huser, hrec⟩ := recordOf_applyWrites huid
  exact ⟨user, h uid user huser, hrec⟩

/-- Every record that was ever written is that of the sign-up that made its account, and no
account was made twice. -/
structure SignUpInv (x : World ι × List (Uid × NewUser)) : Prop where
  issued : ∀ uid user, x.1.db.Issued (.createNewUser uid user) → (uid, user) ∈ x.2
  accounts : ∀ p ∈ x.2, p.1 ∈ x.1.accounts
  different : (x.2.map Prod.fst).Nodup

omit [DecidableEq ι] in
theorem signUpInv_initial : SignUpInv ((initial : World ι), []) where
  issued uid user h := by rcases h with h | ⟨c, h⟩ <;> cases h
  accounts p hp := by cases hp
  different := List.nodup_nil

/-- **A sign-up in its own session** writes the record of the account made for it. -/
theorem SignUpInv.step {x y : World ι × List (Uid × NewUser)} (h : SignUpInv x)
    (hguard : InOwnSession x (c, a))
    (hst : (machine.withHistory noteAccount).step x (c, a) = some y) : SignUpInv y := by
  obtain ⟨w, made⟩ := x
  obtain ⟨w', made'⟩ := y
  obtain ⟨hst, hnote⟩ := Machine.withHistory_step.mp hst
  have hcases := step_cases hst
  have hissued : ∀ uid user, w'.db.Issued (.createNewUser uid user) → (uid, user) ∈ made := by
    intro uid user hx
    rcases hcases.db.issued hx with hold | hissues
    · exact h.issued uid user hold
    · cases hissues with
      | signUpSucceeds hu huid => exact hguard user hu uid huid
  by_cases ha : ∃ i uid, a = .accountCreated i uid
  · obtain ⟨i, uid, rfl⟩ := ha
    obtain ⟨hfresh, user, huser, rfl⟩ := step_accountCreated hst
    obtain rfl : made' = (uid, user) :: made := by
      rw [← hnote]
      simp [noteAccount, huser]
    refine ⟨fun uid' user' hx => List.mem_cons_of_mem _ (hissued uid' user' hx), ?_, ?_⟩
    · intro p hp
      rcases List.mem_cons.mp hp with rfl | hp
      · exact List.mem_cons_self
      · exact List.mem_cons_of_mem _ (h.accounts p hp)
    · refine List.nodup_cons.mpr ⟨fun hmem => ?_, h.different⟩
      obtain ⟨p, hp, heq⟩ := List.mem_map.mp hmem
      have huid : p.1 = uid := heq
      exact hfresh (huid ▸ h.accounts p hp)
  · obtain rfl : made' = made := by
      rw [← hnote]
      cases a with
      | accountCreated i uid => exact absurd ⟨i, uid, rfl⟩ ha
      | _ => rfl
    exact ⟨hissued, fun p hp => hcases.accounts_subset (h.accounts p hp), h.different⟩

/-- A step that breaks the condition writes the record of a sign-up under the id of another
account. -/
theorem signUpSucceeds_of_not_inOwnSession {made : List (Uid × NewUser)}
    (hst : w.step (c, a) = some w') (hbreak : ¬ InOwnSession (w, made) (c, a)) :
    ∃ uid user, (uid, user) ∉ made ∧ w'.db = w.db.issue c (.createNewUser uid user) ∧
      noteAccount w (c, a) w' made = made := by
  cases a with
  | signUpSucceeds i =>
      simp only [InOwnSession, not_forall] at hbreak
      obtain ⟨user, huser, uid, huid, hnot⟩ := hbreak
      refine ⟨uid, user, hnot, ?_, rfl⟩
      cases step_cases hst with
      | @signUpSucceeds _ user' uid' hu huid' =>
          obtain rfl := Option.some.inj (hu.symm.trans huser)
          obtain rfl := Option.some.inj (huid'.symm.trans huid)
          rfl
      | trapped htrap =>
          obtain ⟨user', -, htrap⟩ := Option.map_eq_some_iff.mp htrap
          rw [show (w.app c).currentUser = some uid from huid] at htrap
          cases htrap
  | _ => exact absurd trivial hbreak

/-- **Records as signed up.** In every run of any number of devices, whatever is refused, lost
or interrupted, every record under `User` is the one that was submitted with the sign-up that
made the account, as long as each sign-up completes in the session of the account that was
made for it. One that completes in another session puts its record over that of the other
account. -/
theorem records_as_signed_up :
    (machine.withHistory noteAccount).ExactGuard ((initial : World ι), []) InOwnSession
      fun x => (x.2.map Prod.fst).Nodup ∧ RecordsAsSignedUp x.2 x.1.serverTree ∧
        ∀ c, RecordsAsSignedUp x.2 (x.1.localView c) where
  safe as x hrun hg := by
    have hx : SignUpInv x := hg.run_invariant (I := SignUpInv)
      (fun _ _ _ hx ha hst => hx.step ha hst) signUpInv_initial hrun
    exact ⟨hx.different, .of_writes fun uid user h => hx.issued uid user (Or.inl h),
      fun c => .of_writes fun uid user h =>
        hx.issued uid user (Replica.issued_of_mem_viewSeq h)⟩
  sharp as x a y hrun hg hst hbreak := by
    obtain ⟨c, a⟩ := a
    obtain ⟨w, made⟩ := x
    obtain ⟨w', made'⟩ := y
    obtain ⟨hst, hnote⟩ := Machine.withHistory_step.mp hst
    obtain ⟨uid, user, hnot, hdb, hmade⟩ := signUpSucceeds_of_not_inOwnSession hst hbreak
    obtain rfl : made' = made := hnote.symm.trans hmade
    refine ⟨[], (w', made'), rfl, fun h => ?_⟩
    -- the device sees the record it has just written
    have hview : w'.localView c = (w.localView c).set ["User", uid] user.node := by
      rw [localView, hdb, Replica.viewSeq_issue_self, applyWrites_snoc]
      rfl
    have hchild : uid ∈ ((w'.localView c).sub ["User"]).children := by
      rw [hview, children_users_set]
      exact Finset.mem_insert_self _ _
    obtain ⟨user', huser', hrec⟩ := h.2.2 c uid hchild
    rw [hview, PathTree.sub_set_self] at hrec
    exact hnot (hrec.unique user.isUser_node ▸ huser')

end World

/-! ### A first post -/

namespace World

attribute [local instance] Platform.reference

theorem ids_have_accounts_first_post : ∃ w : World ℕ,
    machine.run initial (annSignsUp ++ annPosts) = some w ∧ Mentions (w.localView 0) "ann" ∧
      "ann" ∈ w.accounts := by
  have hrun : (machine.run (initial : World ℕ) (annSignsUp ++ annPosts)).map (fun w =>
      (w.localView 0).get ["Posts", "-L0", "posterId"]) = some (some (.string "ann")) := by decide
  obtain ⟨w, hw, hposter⟩ := Option.map_eq_some_iff.mp hrun
  have hmentions : Mentions (w.localView 0) "ann" := .poster hposter
  exact ⟨w, hw, hmentions, ((ids_have_accounts hw "ann").2 0).1 hmentions⟩

end World

end MDBSocials
