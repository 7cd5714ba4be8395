import MDBSocials.Accounts
import MDBSocials.Casts
import MDBSocials.Cells
import MDBSocials.Forms
import MDBSocials.InterestOnce

/-!
# Where the Labels Come From

What a user types in a form reaches the labels of other devices through an upload or a
sign-up, a write, the server's log, the views, the queues of observers, the `Post` objects
that cache it and the replies to requests. Whatever is refused or lost on the way, nothing
else comes out at the end, and nothing is mixed up: the name and the description of a post
are those of one form.

## Main results

* `recordOf_submission`: what is under the key of a post is of one submission, or lacks name
  and description.
* `App.Labelled.step`: an application that is shown such records shows labels of such texts.
* `labels_submitted`: in every run, each label of a cell or a detail screen is what some user
  has submitted.
-/

namespace MDBSocials

section Texts

variable [Platform]

/-- What users have submitted so far: the forms of new posts, and those of new accounts. -/
structure Submitted where
  posts : List Submission := []
  newUsers : List NewUser := []

namespace Submitted

/-- What is under the key of a post is of one submission, as far as it is there. -/
def Record (texts : Submitted) (t : Node) : Prop :=
  (stringField t "name" = none ∧ stringField t "description" = none) ∨
    ∃ form ∈ texts.posts, stringField t "name" = some form.name ∧
      stringField t "description" = some form.description

/-- The name and the description of a `Post` object are of one submission. -/
def Event (texts : Submitted) (post : Post) : Prop :=
  (post.eventName = none ∧ post.description = none) ∨
    ∃ form ∈ texts.posts, post.eventName = some form.name ∧
      post.description = some form.description

/-- What `getUserWithId` makes of a node is the record of a sign-up. -/
def User (texts : Submitted) (t : Node) : Prop :=
  ∀ id user, userOfSnapshot id t = .ok user →
    ∃ form ∈ texts.newUsers, user.username = some form.username

/-- The labels of a cell are texts of submissions. -/
structure Cell (texts : Submitted) (cell : FeedTableViewCell) : Prop where
  eventName : ∀ text ∈ cell.eventNameLabel, ∃ form ∈ texts.posts, text = form.name
  posterName : ∀ text ∈ cell.posterNameLabel,
    ∃ form ∈ texts.newUsers, text = "Created by: " ++ form.username

/-- The labels of a detail screen are the name and the description of one submission and the
name of a user, or there are none yet. -/
def Detail (texts : Submitted) (d : DetailViewController) : Prop :=
  (d.title = none ∧ d.descriptionLabel = none ∧ d.posterNameLabel = none) ∨
    ∃ form ∈ texts.posts, ∃ user ∈ texts.newUsers, d.title = some form.name ∧
      d.descriptionLabel = some form.description ∧
      d.posterNameLabel = some ("Posted By: " ++ user.username)

/-- A write brings texts of submissions. -/
def Write (texts : Submitted) : MDBSocials.Write → Prop
  | .newPost _ post => ∃ form ∈ texts.posts, post.name = form.name ∧
      post.description = form.description
  | .createNewUser _ user => user ∈ texts.newUsers
  | .updateInterested _ _ _ => True

end Submitted

/-! ### More submissions -/

/-- Whatever was submitted by then. -/
structure Submitted.Subset (texts texts' : Submitted) : Prop where
  posts : texts.posts ⊆ texts'.posts
  newUsers : texts.newUsers ⊆ texts'.newUsers

namespace Submitted.Subset

variable {texts texts' : Submitted} (h : texts.Subset texts')

include h

theorem record {t : Node} (ht : texts.Record t) : texts'.Record t :=
  ht.imp_right fun ⟨form, hform, hrest⟩ => ⟨form, h.posts hform, hrest⟩

theorem event {post : Post} (hpost : texts.Event post) : texts'.Event post :=
  hpost.imp_right fun ⟨form, hform, hrest⟩ => ⟨form, h.posts hform, hrest⟩

theorem cell {cell : FeedTableViewCell} (hcell : texts.Cell cell) : texts'.Cell cell where
  eventName text htext :=
    (hcell.eventName text htext).imp fun _ hform => ⟨h.posts hform.1, hform.2⟩
  posterName text htext :=
    (hcell.posterName text htext).imp fun _ hform => ⟨h.newUsers hform.1, hform.2⟩

theorem detail {d : DetailViewController} (hd : texts.Detail d) : texts'.Detail d :=
  hd.imp_right fun ⟨form, hform, user, huser, hrest⟩ =>
    ⟨form, h.posts hform, user, h.newUsers huser, hrest⟩

theorem write {x : MDBSocials.Write} (hx : texts.Write x) : texts'.Write x := by
  cases x with
  | newPost =>
      obtain ⟨form, hform, hrest⟩ := hx
      exact ⟨form, h.posts hform, hrest⟩
  | createNewUser => exact h.newUsers hx
  | updateInterested => trivial

end Submitted.Subset

/-! ### Records -/

variable {texts : Submitted}

theorem Submitted.record_empty : texts.Record .empty := Or.inl ⟨rfl, rfl⟩

/-- **Records of posts** are of one submission each, whatever writes are missing. -/
theorem recordOf_submission {us : List Write} (h : ∀ x ∈ us, texts.Write x) (postId : Key) :
    texts.Record ((applyWrites .empty us).sub ["Posts", postId]) := by
  induction us using List.reverseRecOn with
  | nil => exact Submitted.record_empty
  | append_singleton us x ih =>
      have hold := ih fun y hy => h y (List.mem_append_left _ hy)
      have hx := h x (List.mem_append_right _ (List.mem_singleton_self x))
      rw [applyWrites_snoc]
      cases x with
      | newPost key post =>
          by_cases hkey : key = postId
          · subst hkey
            obtain ⟨form, hform, hname, hdescription⟩ := hx
            rw [Write.path, Write.value, PathTree.sub_set_self]
            exact Or.inr ⟨form, hform, hname ▸ stringField_of_sub post.isPost_node.name,
              hdescription ▸ stringField_of_sub post.isPost_node.description⟩
          · rwa [Write.path, PathTree.sub_set_of_incomparable (by simp [hkey])
              (by simp [Ne.symm hkey])]
      | createNewUser uid user =>
          rwa [Write.path, PathTree.sub_set_of_incomparable (by simp) (by simp)]
      | updateInterested postId' key uid =>
          by_cases hpost : postId' = postId
          · subst hpost
            have hpath := PathTree.sub_set_append (applyWrites .empty us) ["Posts", postId']
              ["Interested", key] (.leaf (.string uid))
            have hfield : ∀ field, "Interested" ≠ field →
                stringField (((applyWrites .empty us).sub ["Posts", postId']).set
                  ["Interested", key] (.leaf (.string uid))) field =
                stringField ((applyWrites .empty us).sub ["Posts", postId']) field :=
              fun field hne => stringField_congr
                (PathTree.sub_set_of_incomparable (by simp [hne]) (by simp [Ne.symm hne]))
            rw [Write.path, Write.value]
            refine hpath ▸ ?_
            rw [Submitted.Record, hfield "name" (by decide), hfield "description" (by decide)]
            exact hold
          · rwa [Write.path, PathTree.sub_set_of_incomparable (by simp [hpost])
              (by simp [Ne.symm hpost])]

/-- **Records of users** are those of sign-ups. -/
theorem userOf_submission {us : List Write} (h : ∀ x ∈ us, texts.Write x) (uid : Uid) :
    texts.User ((applyWrites .empty us).sub ["User", uid]) := by
  intro id user huser
  by_cases hchild : uid ∈ ((applyWrites .empty us).sub ["User"]).children
  · obtain ⟨form, hform, hrec⟩ := recordOf_applyWrites hchild
    rw [hrec.userOfSnapshot id] at huser
    obtain rfl := Except.ok.inj huser
    exact ⟨form, h _ hform, rfl⟩
  · have hempty : (applyWrites .empty us).sub ["User", uid] = .empty := by
      have hsub := PathTree.sub_eq_empty hchild
      rwa [PathTree.sub_sub] at hsub
    rw [hempty] at huser
    cases huser

/-- A dictionary is the node it was read from. -/
theorem dictionary_eq {t d : Node} (h : t.value = .dictionary d) : t = d := by
  rw [Node.value] at h
  split at h
  · cases h
  · split at h
    · cases h
    · split at h
      · cases h
      · exact SnapshotValue.dictionary.inj h

/-- The decoder takes the texts of an object from its record, if there is a record. -/
theorem Submitted.Record.event {snap : DataSnapshot} {post : Post}
    (h : texts.Record snap.node) (hpost : fetchedPost snap = .ok post) :
    texts.Event post.record := by
  rw [fetchedPost] at hpost
  split at hpost
  · obtain rfl := Except.ok.inj hpost
    exact Or.inl ⟨rfl, rfl⟩
  · rename_i postDict hdict
    obtain rfl := dictionary_eq hdict
    obtain ⟨ids, -, hpost⟩ := bind_eq_ok.mp hpost
    obtain rfl := Except.ok.inj hpost
    exact h
  · cases hpost

/-! ### Labels -/

/-- The labels that rendering a post fills in at once. -/
theorem Submitted.Event.cell {post : Post} (h : texts.Event post)
    (hname : ∀ name ∈ post.posterName, ∃ form ∈ texts.newUsers, name = form.username) :
    texts.Cell post.cell where
  eventName text htext := by
    rcases h with ⟨hnone, -⟩ | ⟨form, hform, hsome, -⟩
    · cases hnone.symm.trans htext
    · exact ⟨form, hform, Option.some.inj (htext.symm.trans hsome)⟩
  posterName text htext := by
    obtain ⟨name, hmem, rfl⟩ := Option.map_eq_some_iff.mp htext
    obtain ⟨form, hform, rfl⟩ := hname name hmem
    exact ⟨form, hform, rfl⟩

namespace App

/-- An application that is handed records of submissions and shows their texts. -/
structure Labelled (texts : Submitted) (s : App) : Prop
    extends Handed texts.Record texts.Event s where
  posterNames : ∀ r, ∀ name ∈ (s.objects r).posterName,
    ∃ form ∈ texts.newUsers, name = form.username
  cells : ∀ c, texts.Cell (s.cells c)
  detail : ∀ d ∈ s.detail, texts.Detail d

namespace Labelled

variable {s t : App} {a : Action}

theorem launch (u : Option Uid) {view : Node} (h : ∀ key, texts.Record (view.sub ["Posts", key])) :
    Labelled texts (App.launch u view) where
  toHanded := .launch u h (Or.inl ⟨rfl, rfl⟩)
  posterNames := by rintro _ _ ⟨⟩
  cells c := ⟨by rintro _ ⟨⟩, by rintro _ ⟨⟩⟩
  detail := by rintro _ ⟨⟩

/-- The labels of the detail screen are those of its post. -/
theorem step_detail (h : Labelled texts s) (hst : s.step a = some t) :
    ∀ d ∈ t.detail, texts.Detail d := by
  intro d hd
  cases App.step_detail hst with
  | kept _ hsame => exact h.detail d (hsame ▸ hd)
  | opens r hopens =>
      obtain rfl := Option.some.inj (hopens.symm.trans hd)
      exact Or.inl ⟨rfl, rfl, rfl⟩
  | appears d' hd' happears =>
      obtain ⟨title, posterName, htitle, hname, rfl⟩ := detailWillAppear_eq_ok.mp happears
      obtain rfl := Option.some.inj hd
      obtain ⟨user, huser, rfl⟩ := h.posterNames d'.post posterName hname
      rcases h.records d'.post with ⟨hnone, -⟩ | ⟨form, hform, hsome, hdescription⟩
      · cases hnone.symm.trans htitle
      · obtain rfl := Option.some.inj (hsome.symm.trans htitle)
        exact Or.inr ⟨form, hform, user, huser, by simp [setInterestedButtonState]; split <;> rfl,
          hdescription, rfl⟩
  | marked d' count hd' hmarked =>
      obtain rfl := Option.some.inj (hmarked.symm.trans hd)
      exact h.detail d' hd'

/-- **Labels stay those of submissions** when records are, and the users in replies. -/
theorem step (h : Labelled texts s)
    (hviews : ∀ view, a = .viewChanged view → ∀ key, texts.Record (view.sub ["Posts", key]))
    (husers : ∀ q node, a = .userReply q (some node) → texts.User node)
    (hst : s.step a = some t) : Labelled texts t := by
  have ht : Handed texts.Record texts.Event t :=
    h.toHanded.step (fun snap post => Submitted.Record.event) hviews hst
  have hdetail := h.step_detail hst
  have hperform := step_eq_some.mp hst
  cases a with
  | cellForRowAt row cell =>
      obtain ⟨-, hperform⟩ := Option.ite_none_right_eq_some.mp hperform
      obtain ⟨r, -, -, rfl⟩ := cellForRowAt_eq_ok.mp (Option.some.inj hperform)
      refine ⟨ht, h.posterNames, fun c => ?_, hdetail⟩
      by_cases hc : c = cell
      · subst hc
        have hcell : (s.rendered r c).cells c = (s.objects r).cell := by simp [rendered]
        exact hcell ▸ Submitted.Event.cell (h.records r) (h.posterNames r)
      · have hcell : (s.rendered r cell).cells c = s.cells c := by simp [rendered, hc]
        exact hcell ▸ h.cells c
  | pictureReply q data =>
      obtain ⟨-, hperform⟩ := Option.ite_none_right_eq_some.mp hperform
      obtain rfl := Except.ok.inj (Option.some.inj hperform)
      cases data with
      | none => exact ⟨ht, h.posterNames, h.cells, hdetail⟩
      | some data =>
          rw [pictureReply_some] at ht hdetail ⊢
          refine ⟨ht, fun r name hname => ?_, fun c => ?_, hdetail⟩
          · by_cases hr : r = q.post
            · subst hr
              exact h.posterNames q.post name (by simpa using hname)
            · exact h.posterNames r name (by simpa [hr] using hname)
          · by_cases hc : c = q.cell
            · subst hc
              have hold := h.cells q.cell
              exact ⟨by simpa using hold.eventName, by simpa using hold.posterName⟩
            · simpa [hc] using h.cells c
  | userReply q node =>
      obtain ⟨-, hperform⟩ := Option.ite_none_right_eq_some.mp hperform
      cases node with
      | none =>
          obtain rfl := Except.ok.inj (Option.some.inj hperform)
          exact ⟨ht, h.posterNames, h.cells, hdetail⟩
      | some node =>
          obtain ⟨user, name, huser, hname, rfl⟩ :=
            userReply_some_eq_ok.mp (Option.some.inj hperform)
          obtain ⟨form, hform, hsome⟩ := husers q node rfl q.posterId user huser
          obtain rfl := Option.some.inj (hname.symm.trans hsome)
          refine ⟨ht, fun r text htext => ?_, fun c => ?_, hdetail⟩
          · by_cases hr : r = q.post
            · subst hr
              obtain rfl : form.username = text := by simpa using htext
              exact ⟨form, hform, rfl⟩
            · exact h.posterNames r text (by simpa [hr] using htext)
          · by_cases hc : c = q.cell
            · subst hc
              refine ⟨by simpa using (h.cells q.cell).eventName, fun text htext => ?_⟩
              obtain rfl : "Created by: " ++ form.username = text := by simpa using htext
              exact ⟨form, hform, rfl⟩
            · simpa [hc] using h.cells c
  | interestedReply q node =>
      obtain ⟨-, hperform⟩ := Option.ite_none_right_eq_some.mp hperform
      obtain ⟨users, -, rfl⟩ := interestedReply_eq_ok.mp (Option.some.inj hperform)
      refine ⟨ht, h.posterNames, fun c => ?_, hdetail⟩
      by_cases hc : c = q.cell
      · subst hc
        have hold := h.cells q.cell
        exact ⟨by simpa using hold.eventName, by simpa using hold.posterName⟩
      · simpa [hc] using h.cells c
  | _ =>
      -- nothing else writes to a cell, or to the name of a poster but that of a new object
      have hsame := step_sameCells rfl hst
      refine ⟨ht, fun r name hname => ?_, fun c => hsame.cells ▸ h.cells c, hdetail⟩
      rcases hsame.objects r with hshown | ⟨-, -, hnone⟩
      · have hposter : (t.objects r).posterName = (s.objects r).posterName :=
          (congrArg Post.posterName hshown :)
        exact h.posterNames r name (hposter ▸ hname)
      · cases hnone.symm.trans hname

/-- What was submitted by then will have been. -/
theorem mono {texts' : Submitted} (h : Labelled texts s) (hsub : texts.Subset texts') :
    Labelled texts' s where
  toHanded := h.toHanded.mono (fun _ => hsub.record) fun _ => hsub.event
  posterNames r name hname :=
    (h.posterNames r name hname).imp fun _ hform => ⟨hsub.newUsers hform.1, hform.2⟩
  cells c := hsub.cell (h.cells c)
  detail d hd := hsub.detail (h.detail d hd)

end Labelled

end App

end Texts

/-! ### All devices -/

namespace World

variable [Platform] {ι : Type} {w w' : World ι} {c : ι} {a : ClientAction} {texts : Submitted}

/-- The forms that are submitted are noted. -/
def noteForms (_ : World ι) (a : ι × ClientAction) (_ : World ι) (texts : Submitted) : Submitted :=
  match a.2 with
  | .newPostWithImage form => { texts with posts := form :: texts.posts }
  | .signUp form => { texts with newUsers := form :: texts.newUsers }
  | _ => texts

theorem subset_noteForms : texts.Subset (noteForms w (c, a) w' texts) := by
  cases a with
  | newPostWithImage => exact ⟨List.subset_cons_self _ _, List.Subset.refl _⟩
  | signUp => exact ⟨List.Subset.refl _, List.subset_cons_self _ _⟩
  | _ => exact ⟨List.Subset.refl _, List.Subset.refl _⟩

/-- All texts that are on their way, written or shown have been submitted. -/
structure LabelsInv (w : World ι) (texts : Submitted) : Prop where
  uploads : ∀ c, ∀ u ∈ (w.clients c).uploads ++ (w.clients c).uploaded,
    u.submission ∈ texts.posts
  signUps : ∀ c, ∀ user ∈ (w.clients c).signUps ++ (w.clients c).signedUp,
    user ∈ texts.newUsers
  issued : ∀ x, w.db.Issued x → texts.Write x
  apps : ∀ c, (w.app c).Labelled texts

theorem labelsInv_initial : LabelsInv (initial : World ι) {} where
  uploads c u hu := by cases hu
  signUps c user huser := by cases huser
  issued x hx := by rcases hx with hx | ⟨c, hx⟩ <;> cases hx
  apps c := .launch none fun key => Submitted.record_empty

variable [DecidableEq ι]

/-- What a device sees is of submissions, if all writes are. -/
theorem record_localView (h : ∀ x, w.db.Issued x → texts.Write x) (key : Key) :
    texts.Record ((w.localView c).sub ["Posts", key]) :=
  recordOf_submission (fun x hx => h x (Replica.issued_of_mem_viewSeq hx)) key

/-- A device is shown its view again. -/
theorem labelled_refresh {w₁ : World ι} (happ : (w₁.app c).Labelled texts)
    (h : ∀ x, w₁.db.Issued x → texts.Write x) : ((w₁.refresh c).app c).Labelled texts := by
  rw [app_refresh_self]
  refine happ.step (a := .viewChanged (w₁.localView c)) ?_ (by rintro _ _ ⟨⟩) rfl
  rintro view hview
  obtain rfl := Action.viewChanged.inj hview
  exact record_localView h

/-- A new process shows nothing yet. -/
theorem labelled_terminate (w₁ : World ι)
    (h : ∀ x, (w₁.db.crash c).Issued x → texts.Write x) :
    ((w₁.terminate c).app c).Labelled texts := by
  have hview := record_localView (w := { w₁ with db := w₁.db.crash c }) (c := c) h
  simpa [World.terminate] using App.Labelled.launch _ hview

/-- **What a device shows** stays of submissions. -/
theorem LabelsInv.app (h : LabelsInv w texts) (hissued : ∀ x, w'.db.Issued x → texts.Write x)
    (hst : Step w c a w') : (w'.app c).Labelled texts := by
  have hold := h.apps c
  cases hst with
  | @feed b a' app hinput happ =>
      have hlabelled : app.Labelled texts := by
        refine hold.step (fun view hview => ?_) (fun q node ha' => ?_) happ
        · exact absurd hview (input_ne_viewChanged hinput view)
        · subst ha'
          cases b with
          | userReply q' succeeded =>
              cases succeeded with
              | false => cases hinput
              | true =>
                  obtain ⟨rfl, hnode⟩ := Action.userReply.inj (Option.some.inj hinput)
                  obtain rfl := Option.some.inj hnode
                  exact userOf_submission
                    (fun x hx => h.issued x (Replica.issued_of_mem_append hx)) q'.posterId
          | signInReply =>
              obtain ⟨-, hinput⟩ := Option.ite_none_right_eq_some.mp hinput
              cases hinput
          | _ => cases hinput
      simpa [setApp] using hlabelled
  | @tappedInterested key d write app hkey hd henabled happ =>
      have hstep := App.step_of_tap hd henabled happ
      refine labelled_refresh ?_ hissued
      simpa [setApp, World.app] using
        hold.step (by rintro _ ⟨⟩) (by rintro _ _ ⟨⟩) hstep
  | uploadSucceeds | signUpSucceeds =>
      exact labelled_refresh (by simpa [World.app] using hold) hissued
  | reject | sync => exact labelled_refresh hold hissued
  | @accountCreated i uid user =>
      have hlabelled : ((w.app c).userCreated uid).Labelled texts :=
        hold.step (a := .userCreated uid) (by rintro _ ⟨⟩) (by rintro _ _ ⟨⟩) rfl
      simpa [World.app] using hlabelled
  | terminate | trapped => exact labelled_terminate _ hissued
  | arrive => exact hold
  | _ => simpa [World.app] using hold

/-- **Texts stay those of submissions** in every step, the step's own form included. -/
theorem LabelsInv.step (h : LabelsInv w texts) (hst : w.step (c, a) = some w') :
    LabelsInv w' (noteForms w (c, a) w' texts) := by
  have hcases := step_cases hst
  have hsub : texts.Subset (noteForms w (c, a) w' texts) := subset_noteForms
  have hissued : ∀ x, w'.db.Issued x → texts.Write x := by
    intro x hx
    rcases hcases.db.issued hx with hold | hissues
    · exact h.issued x hold
    · cases hissues with
      | tappedInterested => trivial
      | @uploadSucceeds i key u uid hu huid =>
          have hmem := h.uploads c u (List.mem_append_right _ (List.mem_of_getElem? hu))
          exact ⟨u.submission, hmem, rfl, rfl⟩
      | signUpSucceeds hu huid =>
          exact h.signUps c _ (List.mem_append_right _ (List.mem_of_getElem? hu))
  refine ⟨fun d u hu => ?_, fun d user huser => ?_, fun x hx => hsub.write (hissued x hx),
    fun d => ?_⟩
  · rcases hcases.submissions hu with hold | ⟨-, rfl, -⟩
    · exact hsub.posts (h.uploads d u hold)
    · exact List.mem_cons_self
  · rcases step_newUsers hst huser with hold | rfl
    · exact hsub.newUsers (h.signUps d user hold)
    · exact List.mem_cons_self
  · by_cases hd : d = c
    · subst hd
      exact (h.app hissued hcases).mono hsub
    · have happ : w'.app d = w.app d := congrArg Client.app (hcases.clients_of_ne hd)
      exact happ ▸ (h.apps d).mono hsub

/-- **Labels are what was submitted.** In every run of any number of devices, whatever is
refused, lost or interrupted, the name of an event in a cell is one that some user has
submitted, and so is the name of its poster; and a detail screen shows the name and the
description of one submission and the name of one user, or has not appeared yet. -/
theorem labels_submitted {as : List (ι × ClientAction)}
    (hrun : (machine.withHistory noteForms).run ((initial : World ι), {}) as = some (w, texts))
    (c : ι) : (∀ cell, texts.Cell ((w.app c).cells cell)) ∧
      ∀ d ∈ (w.app c).detail, texts.Detail d := by
  have hw : LabelsInv w texts := by
    refine Machine.run_invariant (I := fun x : World ι × Submitted => LabelsInv x.1 x.2)
      (fun x a y hx hst => ?_) labelsInv_initial hrun
    obtain ⟨hst, hnote⟩ := Machine.withHistory_step.mp hst
    exact hnote ▸ hx.step hst
  exact ⟨(hw.apps c).cells, (hw.apps c).detail⟩

end World

/-! ### A post on another device -/

namespace World

attribute [local instance] Platform.reference

/-- Ann opens her post on another device. -/
theorem labels_submitted_two : ∃ (w : World ℕ) (texts : Submitted) (d : DetailViewController),
    (machine.withHistory noteForms).run ((initial : World ℕ), {}) (annSignsUp ++ annPosts ++
      [(0, .arrive), (0, .arrive)] ++ annSignsIn ++ tapsInterested 1 "-L1") = some (w, texts) ∧
    (w.app 1).detail = some d ∧ d.descriptionLabel = some "at nine" ∧
    d.posterNameLabel = some "Posted By: ann1" ∧ texts.Detail d := by
  have hrun : ((machine.withHistory noteForms).run ((initial : World ℕ), {}) (annSignsUp ++
      annPosts ++ [(0, .arrive), (0, .arrive)] ++ annSignsIn ++ tapsInterested 1 "-L1")).map
        (fun x => (x.1.app 1).detail.map fun d => (d.descriptionLabel, d.posterNameLabel)) =
      some (some (some "at nine", some "Posted By: ann1")) := by decide
  obtain ⟨⟨w, texts⟩, hw, hlabels⟩ := Option.map_eq_some_iff.mp hrun
  obtain ⟨d, hd, hlabels⟩ := Option.map_eq_some_iff.mp hlabels
  obtain ⟨hdescription, hposter⟩ := Prod.mk.inj hlabels
  exact ⟨w, texts, d, hw, hd, hdescription, hposter, (labels_submitted hw 1).2 d hd⟩

end World

end MDBSocials
