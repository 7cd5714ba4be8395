import MDBSocials.PostSchema

/-!
# The Author of a Post

`newPostWithImage` captures the name, the description and the date of a post at the
call, but `newPost` reads the author when the upload of the picture completes. In
between, the session may have changed.

## Main results

* `Step.attributed`: a step keeps every post with its submitter exactly when no upload
  completes in the session of somebody else, or of nobody.
* `posts_attributed`: the runs in which every post has its submitter's id and no
  completion traps are those in which each upload completes in its submitter's session.
* `post_misattributed`: a run that gives a post to another user, and one that traps.
-/

namespace MDBSocials

namespace World

variable [Platform] {ι : Type} {w w' : World ι} {c : ι} {a : ClientAction}

/-- Every call of `newPost` so far has written the id of the user who was signed in when
`newPostWithImage` was called, and none has unwrapped a missing id. -/
structure Attributed (w : World ι) : Prop where
  posterId : ∀ u key post, (u, .newPost key post) ∈ w.created → u.submitter = some post.posterId
  unwrapped : ∀ c i key trap, ((c, .uploadSucceeds i key), trap) ∉ w.traps

theorem attributed_initial : Attributed (initial : World ι) := ⟨nofun, nofun⟩

variable [DecidableEq ι]

/-- An upload completes while its submitter is signed in. -/
def SubmitterSignedIn (w : World ι) : ι × ClientAction → Prop
  | (c, .uploadSucceeds i _) => ∀ u ∈ (w.clients c).uploaded[i]?,
      ∃ uid ∈ u.submitter, (w.app c).currentUser = some uid
  | _ => True

instance (w : World ι) (a : ι × ClientAction) : Decidable (w.SubmitterSignedIn a) := by
  obtain ⟨c, a⟩ := a
  rcases a <;> dsimp only [SubmitterSignedIn] <;> infer_instance

/-- The completion of an upload traps only when nobody is signed in. -/
theorem uploadSucceeds_error {i : ℕ} {key : Key} {trap : Trap}
    (h : w.perform c (.uploadSucceeds i key) = some (.error trap)) :
    (∃ u, (w.clients c).uploaded[i]? = some u) ∧ (w.app c).currentUser = none := by
  obtain ⟨-, h⟩ := Option.ite_none_right_eq_some.mp h
  obtain ⟨u, hu, h⟩ := Option.map_eq_some_iff.mp h
  refine ⟨⟨u, hu⟩, ?_⟩
  cases huser : (w.app c).currentUser with
  | none => rfl
  | some uid =>
      rw [Upload.succeeded_eq_ok.mpr ⟨uid, huser, rfl⟩] at h
      cases h

/-- The posts of a step that does not complete an upload are those from before. -/
theorem Attributed.of_other (h : Attributed w) (hst : Step w c a w')
    (ha : ∀ i key, a ≠ .uploadSucceeds i key) : Attributed w' := by
  refine ⟨?_, fun d i key trap hmem => ?_⟩
  · rcases hst.created with hsame | ⟨i, key, u, uid, rfl, -⟩
    · exact hsame ▸ h.posterId
    · exact absurd rfl (ha i key)
  · rcases hst.mem_traps hmem with hold | ⟨⟨-, rfl⟩, -⟩
    · exact h.unwrapped d i key trap hold
    · exact ha i key rfl

/-- **One step**: attribution survives it exactly when an upload it completes has its
submitter signed in. -/
theorem Step.attributed (hst : Step w c a w') (h : Attributed w) :
    Attributed w' ↔ SubmitterSignedIn w (c, a) := by
  cases a with
  | uploadSucceeds i key =>
      cases hst with
      | @uploadSucceeds _ _ u write hkey hu hwrite =>
          obtain ⟨uid, huid, rfl⟩ := Upload.succeeded_eq_ok.mp hwrite
          have hguard : SubmitterSignedIn w (c, .uploadSucceeds i key) ↔
              u.submitter = some uid := by
            simp [SubmitterSignedIn, hu, huid]
          rw [hguard]
          constructor
          · exact fun h' => h'.posterId u key (u.post uid) List.mem_cons_self
          · refine fun hsub => ⟨fun v key' post hv => ?_, h.unwrapped⟩
            rcases List.mem_cons.mp hv with heq | hold
            · obtain ⟨rfl, hwrite⟩ := Prod.mk.inj heq
              obtain ⟨-, rfl⟩ := Write.newPost.inj hwrite
              exact hsub
            · exact h.posterId v key' post hold
      | trapped htrap =>
          -- the trap is one of those that attribution excludes
          refine iff_of_false (fun h' => h'.unwrapped c i key _ List.mem_cons_self) ?_
          obtain ⟨⟨u, hu⟩, hnone⟩ := uploadSucceeds_error htrap
          intro hguard
          obtain ⟨uid, -, huid⟩ := hguard u hu
          rw [hnone] at huid
          cases huid
  | _ => exact iff_of_true (h.of_other hst (by simp)) trivial

/-- **Attribution.** A run of any number of devices keeps every post with its submitter,
and lets no completion trap, exactly when each upload that completes does so while the
user who was signed in at the call of `newPostWithImage` is signed in. -/
theorem posts_attributed {as : List (ι × ClientAction)}
    (hrun : machine.run (initial : World ι) as = some w) :
    machine.Always Attributed (initial : World ι) as ↔
      machine.Guarded SubmitterSignedIn (initial : World ι) as :=
  Machine.always_iff_guarded (A := fun _ => True) (I := fun _ => True) (P := Attributed)
    (fun _ _ _ _ _ _ => trivial)
    (fun _ _ _ _ _ hattr hst => (step_cases hst).attributed hattr) trivial attributed_initial
    (fun _ _ => trivial) hrun

end World

/-! ### Uploads and sessions -/

namespace World

attribute [local instance] Platform.reference

theorem posts_attributed_first_post :
    ∃ w : World ℕ, machine.run initial (annSignsUp ++ annPosts) = some w ∧
      machine.Always Attributed (initial : World ℕ) (annSignsUp ++ annPosts) := by
  have hrun : ((machine.run (initial : World ℕ) (annSignsUp ++ annPosts)).isSome) = true := by
    decide
  obtain ⟨w, hw⟩ := Option.isSome_iff_exists.mp hrun
  exact ⟨w, hw, (posts_attributed hw).mpr (by decide)⟩

/-- Bob, who has an account, and Ann both tap the log-in button of a device. Ann's reply
comes first, and she submits a post. -/
def annSubmits : List (ℕ × ClientAction) :=
  annSignsUp ++ [(1, .signUp ⟨"Bob", "bob1", "bob@x.org"⟩), (1, .accountCreated 0 "bob"),
    (1, .signUpSucceeds 0), (0, .feed (.logOut true false)), (0, .feed (.tappedLogin "bob")),
    (0, .feed (.tappedLogin "ann")), (0, .feed (.signInReply "ann" true)),
    (0, .feed .viewWillAppear),
    (0, .newPostWithImage ⟨⟨[1]⟩, "Party", "at nine", "Feb 21, 9:00 PM"⟩)]

/-- The authors of the posts so far: who submitted them, and whose they are. -/
def authors (w : World ℕ) : List (Option Uid × Uid) :=
  w.created.filterMap fun x => match x.2 with
    | .newPost _ post => some (x.1.submitter, post.posterId)
    | _ => none

/-- The traps in completions of uploads so far. -/
def uploadTraps (w : World ℕ) : List Trap :=
  w.traps.filterMap fun x => match x.1.2 with
    | .uploadSucceeds _ _ => some x.2
    | _ => none

/-- Nothing is tapped while Ann's upload is on its way. The late reply signs Bob in, who
becomes the author of her post; or the session ends by itself, and the completion traps. -/
theorem post_misattributed :
    (∃ w : World ℕ, machine.run initial (annSubmits ++ [(0, .feed (.signInReply "bob" true)),
        (0, .pictureStored 0), (0, .uploadSucceeds 0 "-L0")]) = some w ∧
      authors w = [(some "ann", "bob")] ∧ ¬ Attributed w) ∧
    ∃ w : World ℕ, machine.run initial (annSubmits ++ [(0, .feed (.sessionLoss false)),
        (0, .pictureStored 0), (0, .uploadSucceeds 0 "-L0")]) = some w ∧
      uploadTraps w = [.forcedUnwrap "posterId!"] ∧ ¬ Attributed w := by
  constructor
  · have hrun : (machine.run (initial : World ℕ)
        (annSubmits ++ [(0, .feed (.signInReply "bob" true)), (0, .pictureStored 0),
          (0, .uploadSucceeds 0 "-L0")])).map authors = some [(some "ann", "bob")] := by decide
    obtain ⟨w, hw, hauthors⟩ := Option.map_eq_some_iff.mp hrun
    refine ⟨w, hw, hauthors, fun h => ?_⟩
    have hmem : (some "ann", "bob") ∈ authors w := by simp [hauthors]
    obtain ⟨⟨u, write⟩, hcreated, hauthor⟩ := List.mem_filterMap.mp hmem
    cases write with
    | newPost key post =>
        obtain ⟨hann, hbob⟩ := Prod.mk.inj (Option.some.inj hauthor)
        have hsame : u.submitter = some post.posterId := h.posterId u key post hcreated
        rw [hann, hbob] at hsame
        exact absurd hsame (by decide)
    | _ => cases hauthor
  · have hrun : (machine.run (initial : World ℕ)
        (annSubmits ++ [(0, .feed (.sessionLoss false)), (0, .pictureStored 0),
          (0, .uploadSucceeds 0 "-L0")])).map uploadTraps =
        some [.forcedUnwrap "posterId!"] := by decide
    obtain ⟨w, hw, htraps⟩ := Option.map_eq_some_iff.mp hrun
    refine ⟨w, hw, htraps, fun h => ?_⟩
    have hmem : .forcedUnwrap "posterId!" ∈ uploadTraps w := by simp [htraps]
    obtain ⟨⟨⟨c, a⟩, trap⟩, htrapped, htrap⟩ := List.mem_filterMap.mp hmem
    cases a with
    | uploadSucceeds i key => exact h.unwrapped c i key trap htrapped
    | _ => cases htrap

end World

end MDBSocials
