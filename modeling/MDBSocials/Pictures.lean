import MDBSocials.PostSchema

/-!
# The Pictures of Posts

The picture of a post is uploaded to a location made of the post's trimmed name, and the
post keeps that location's URL. Two posts of one name share the location, so the later
upload replaces the picture of the earlier post.

An upload is live when its completion can still make a post, or has made one that is not
lost. As long as no upload replaces the object of a live one by another picture, and
no picture is too large to be downloaded, every post has its own picture.

## Main results

* `PictureInv.step`: the pictures of the live uploads stay in Storage.
* `pictures_intact`: every post shows the picture it was submitted with under this
  condition, which is exact.
* `picture_replaced`: two posts of one name show the second one's picture.
-/

namespace MDBSocials

section Download

variable [Platform]

/-- The picture that `Post.getPicture` obtains from Storage. -/
def pictureOf (storage : StoragePath → Option Data) (post : Post) : Option UIImage := do
  let imageUrl ← post.imageUrl
  let reference ← Platform.referenceForURL imageUrl
  let data ← getData storage reference
  Platform.imageOfData data

/-- The two handlers of a download set the object's picture to what `pictureOf` says. -/
theorem App.image_of_getPicture {s t : App} {r : PostRef} {c : CellRef}
    (h : s.getPicture r c = .ok t) : ∃ q ∈ t.pictureRequests, q.post = r ∧
      ∀ storage data, getData storage q.reference = some data →
        ((t.pictureReply q (some data)).objects r).image = pictureOf storage (s.objects r) := by
  obtain ⟨url, hurl, h⟩ := bind_eq_ok.mp h
  cases href : Platform.referenceForURL url with
  | none => simp [href] at h
  | some reference =>
      rw [href] at h
      obtain rfl := Except.ok.inj h
      refine ⟨⟨c, r, reference⟩, by simp, rfl, fun storage data hdata => ?_⟩
      have hpicture : pictureOf storage (s.objects r) = Platform.imageOfData data := by
        simp [pictureOf, forceUnwrap_eq_ok.mp hurl, href, hdata]
      rw [hpicture]
      simp [pictureReply, modifyPost, modifyCell]

end Download

namespace World

variable [Platform] {ι : Type}

/-- The picture of an upload is the one found at its location. -/
def Pictured (w : World ι) (u : Upload) : Prop :=
  (getData w.storage u.imageRef).bind Platform.imageOfData = some u.submission.selectedImage

/-- The completion of the upload has not run, or the post it has written is at the server
or in a queue. -/
def Live (w : World ι) (u : Upload) : Prop :=
  (∃ c, u ∈ (w.clients c).uploaded) ∨
    ∃ key post, (u, .newPost key post) ∈ w.created ∧ w.db.Issued (.newPost key post)

/-- A picture that is stored can be downloaded, and replaces no other picture of a live
upload. -/
def KeepsPictures (w : World ι) : ι × ClientAction → Prop
  | (c, .pictureStored i) => ∀ u ∈ (w.clients c).uploads[i]?,
      u.data.length ≤ maxSize ∧
      ∀ v, w.Live v → v.imageRef = u.imageRef →
        v.submission.selectedImage = u.submission.selectedImage
  | _ => True

/-- The pictures of the live uploads are in Storage. -/
structure PictureInv (w : World ι) : Prop where
  encoded : ∀ c, ∀ u ∈ (w.clients c).uploads,
    Platform.pngRepresentation u.submission.selectedImage = some u.data
  pictured : ∀ u, w.Live u → w.Pictured u

theorem pictureInv_initial : PictureInv (initial : World ι) where
  encoded := nofun
  pictured u h := by
    rcases h with ⟨c, h⟩ | ⟨key, post, h, -⟩ <;> cases h

variable {w w' : World ι} {c : ι} {a : ClientAction}

/-- What has just been stored is found. -/
theorem image_of_stored {u : Upload} {ref : StoragePath}
    (hstorage : w'.storage = Function.update w.storage u.imageRef (some u.data))
    (hpng : Platform.pngRepresentation u.submission.selectedImage = some u.data)
    (hsize : u.data.length ≤ maxSize) (href : ref = u.imageRef) :
    (getData w'.storage ref).bind Platform.imageOfData = some u.submission.selectedImage := by
  have hdata : getData w'.storage ref = some u.data :=
    getData_eq_some.mpr ⟨by simp [hstorage, href], hsize⟩
  rw [hdata]
  exact Platform.imageOfData_png _ _ hpng

/-- What `getPicture` obtains for a record that `newPost` wrote for an upload. -/
theorem pictureOf_record {storage : StoragePath → Option Data} {u : Upload} {uid : Uid}
    {key : Key} {p : Post} (hp : p.record = (u.post uid).record key) :
    pictureOf storage p = (getData storage u.imageRef).bind Platform.imageOfData := by
  have hurl : p.imageUrl = some (Platform.downloadURL u.imageRef) := congrArg Post.imageUrl hp
  simp [pictureOf, hurl, Platform.referenceForURL_downloadURL]

/-- The records of a causal sequence of issued writes. -/
theorem exists_record (hcreated : CreatedInv w) {us : List Write}
    (hcausal : Replica.CausalFrom Write.Needs [] us) (hissued : ∀ x ∈ us, w.db.Issued x)
    {key : Key} (hkey : key ∈ ((applyWrites .empty us).sub ["Posts"]).children) :
    ∃ u post p, (u, .newPost key post) ∈ w.created ∧ w.db.Issued (.newPost key post) ∧
      fetchedPost ⟨key, (applyWrites .empty us).sub ["Posts", key]⟩ = .ok p ∧
      pictureOf w.storage p = (getData w.storage u.imageRef).bind Platform.imageOfData := by
  obtain ⟨post, hpost, hrec⟩ := postsOf_applyWrites hcausal key hkey
  obtain ⟨u, uid, hu, rfl⟩ := hcreated.exists_call (hissued _ hpost)
  obtain ⟨p, hp, hrecord, -⟩ := @IsPost.fetchedPost _ _ ⟨key, _⟩ hrec
  exact ⟨u, _, p, hu, hissued _ hpost, hp, pictureOf_record hrecord⟩

theorem exists_freshKey (w : World ι) : ∃ key, w.FreshKey key := by
  obtain ⟨key, hkey, hdigits⟩ := exists_key w.keys.toFinset
  exact ⟨key, by simpa using hkey, hdigits⟩

variable [DecidableEq ι]

/-- Every record under `Posts`, at the server and in every device's view, is that of a
call of `newPost`, and `getPicture` on it obtains the picture submitted for it. -/
def PicturesIntact (w : World ι) : Prop :=
  ∀ t, (t = w.serverTree ∨ ∃ c, t = w.localView c) →
    ∀ key ∈ (t.sub ["Posts"]).children, ∃ u post p,
      (u, .newPost key post) ∈ w.created ∧
      fetchedPost ⟨key, t.sub ["Posts", key]⟩ = .ok p ∧
      pictureOf w.storage p = some u.submission.selectedImage

/-! ### The invariant -/

/-- Storage changes when a picture arrives. -/
theorem Step.storage (h : Step w c a w') : w'.storage = w.storage ∨
    ∃ i u, a = .pictureStored i ∧ (w.clients c).uploads[i]? = some u ∧
      w'.storage = Function.update w.storage u.imageRef (some u.data) := by
  cases h with
  | pictureStored hu => exact Or.inr ⟨_, _, rfl, hu, rfl⟩
  | _ => exact Or.inl rfl

/-- Pictures on their way were handed to `newPostWithImage`. -/
theorem Step.uploads (h : Step w c a w') {d : ι} {u : Upload}
    (hu : u ∈ (w'.clients d).uploads) : u ∈ (w.clients d).uploads ∨
      ∃ user submission, MDBSocials.newPostWithImage user submission = .ok u := by
  by_cases hd : d = c
  · subst hd
    cases h with
    | @newPostWithImage submission v hv =>
        simp only [clients_modify_self] at hu
        rcases List.mem_append.mp hu with hu | hu
        · exact Or.inl hu
        · exact Or.inr ⟨_, submission, List.mem_singleton.mp hu ▸ hv⟩
    | pictureStored | uploadFails =>
        simp only [clients_modify_self] at hu
        exact Or.inl (List.mem_of_mem_eraseIdx hu)
    | terminate | trapped => simp [World.terminate, World.trapped] at hu
    | arrive => exact Or.inl hu
    | _ => exact Or.inl (by simpa [World.issue, World.refresh, setApp] using hu)
  · exact Or.inl (h.clients_of_ne hd ▸ hu)

/-- Pictures whose completion has not run have arrived in Storage. -/
theorem Step.uploaded (h : Step w c a w') {d : ι} {u : Upload}
    (hu : u ∈ (w'.clients d).uploaded) : u ∈ (w.clients d).uploaded ∨
      ∃ i, a = .pictureStored i ∧ (w.clients c).uploads[i]? = some u ∧
        w'.storage = Function.update w.storage u.imageRef (some u.data) := by
  by_cases hd : d = c
  · subst hd
    cases h with
    | @pictureStored i v hv =>
        simp only [clients_modify_self] at hu
        rcases List.mem_append.mp hu with hu | hu
        · exact Or.inl hu
        · obtain rfl := List.mem_singleton.mp hu
          exact Or.inr ⟨i, rfl, hv, rfl⟩
    | uploadReplyLost =>
        simp only [clients_modify_self] at hu
        exact Or.inl (List.mem_of_mem_eraseIdx hu)
    | uploadSucceeds =>
        simp only [World.issue, World.refresh, setApp, clients_modify_self] at hu
        exact Or.inl (List.mem_of_mem_eraseIdx hu)
    | terminate | trapped => simp [World.terminate, World.trapped] at hu
    | arrive => exact Or.inl hu
    | _ => exact Or.inl (by simpa [World.issue, World.refresh, setApp] using hu)
  · exact Or.inl (h.clients_of_ne hd ▸ hu)

/-- Uploads come alive when their pictures arrive in Storage. -/
theorem Step.live (h : Step w c a w') (hcreated : CreatedInv w) {u : Upload}
    (hu : w'.Live u) : w.Live u ∨
      ∃ i, a = .pictureStored i ∧ (w.clients c).uploads[i]? = some u ∧
        w'.storage = Function.update w.storage u.imageRef (some u.data) := by
  rcases hu with ⟨d, hu⟩ | ⟨key, post, hmem, hissued⟩
  · exact (h.uploaded hu).imp_left fun hu => Or.inl ⟨d, hu⟩
  · refine Or.inl ?_
    rcases h.issued_newPost hissued with hold | ⟨v, hv, hnew⟩
    · rcases h.created with hsame | ⟨i, key', v, uid, -, -, hv, -, hnew, -⟩
      · exact Or.inr ⟨key, post, hsame ▸ hmem, hold⟩
      · rw [hnew] at hmem
        rcases List.mem_cons.mp hmem with heq | hmem
        · obtain rfl := (Prod.mk.inj heq).1
          exact Or.inl ⟨c, List.mem_of_getElem? hv⟩
        · exact Or.inr ⟨key, post, hmem, hold⟩
    · -- the key of the post tells its upload
      have hsame := (hcreated.step h).unique _ hmem _ (hnew ▸ List.mem_cons_self) key post post
        rfl rfl
      obtain rfl := (Prod.mk.inj hsame).1
      exact Or.inl ⟨c, hv⟩

theorem PictureInv.step (h : PictureInv w) (hcreated : CreatedInv w)
    (hg : KeepsPictures w (c, a)) (hst : Step w c a w') : PictureInv w' := by
  refine ⟨fun d u hu => ?_, fun v hv => ?_⟩
  · rcases hst.uploads hu with hu | ⟨user, submission, hu⟩
    · exact h.encoded d u hu
    · obtain ⟨data, hdata, hu⟩ := bind_eq_ok.mp hu
      obtain rfl := Except.ok.inj hu
      exact forceUnwrap_eq_ok.mp hdata
  · rcases hst.live hcreated hv with hlive | ⟨i, rfl, hv, hstorage⟩
    · rcases hst.storage with hsame | ⟨i, u, rfl, hu, hstorage⟩
      · rw [Pictured, hsame]
        exact h.pictured v hlive
      · obtain ⟨hsize, hother⟩ := hg u hu
        by_cases href : v.imageRef = u.imageRef
        · rw [Pictured, hother v hlive href]
          exact image_of_stored hstorage (h.encoded c u (List.mem_of_getElem? hu)) hsize href
        · have hpictured := h.pictured v hlive
          rw [Pictured, hstorage, getData, Function.update_of_ne href]
          exact hpictured
    · exact image_of_stored hstorage (h.encoded c v (List.mem_of_getElem? hv)) (hg v hv).1 rfl

theorem PictureInv.picturesIntact (h : PictureInv w) (hschema : SchemaInv w)
    (hcreated : CreatedInv w) : PicturesIntact w := by
  have hseq : ∀ us, Replica.CausalFrom Write.Needs [] us → (∀ x ∈ us, w.db.Issued x) →
      ∀ key ∈ ((applyWrites .empty us).sub ["Posts"]).children, ∃ u post p,
        (u, .newPost key post) ∈ w.created ∧
        fetchedPost ⟨key, (applyWrites .empty us).sub ["Posts", key]⟩ = .ok p ∧
        pictureOf w.storage p = some u.submission.selectedImage := by
    intro us hcausal hissued key hkey
    obtain ⟨u, post, p, hu, hi, hp, hpicture⟩ := exists_record hcreated hcausal hissued hkey
    exact ⟨u, post, p, hu, hp, hpicture.trans (h.pictured u (Or.inr ⟨key, post, hu, hi⟩))⟩
  rintro t (rfl | ⟨c, rfl⟩)
  · exact hseq _ hschema.causal.server fun x hx => Or.inl hx
  · exact hseq _ (hschema.views c) fun x hx => Replica.issued_of_mem_viewSeq hx

/-! ### The condition is exact -/

/-- A post whose picture is not in Storage shows another picture, or none. -/
theorem not_picturesIntact (hschema : SchemaInv w) (hcreated : CreatedInv w) {v : Upload}
    {key : Key} {post : NewPost} (hv : (v, .newPost key post) ∈ w.created)
    (hissued : w.db.Issued (.newPost key post)) (hnot : ¬ w.Pictured v) :
    ¬ PicturesIntact w := by
  intro hintact
  -- a tree that shows the post
  obtain ⟨us, hus, hcausal, hall, hmem⟩ : ∃ us : List Write,
      (applyWrites .empty us = w.serverTree ∨ ∃ d, applyWrites .empty us = w.localView d) ∧
      Replica.CausalFrom Write.Needs [] us ∧ (∀ x ∈ us, w.db.Issued x) ∧
      .newPost key post ∈ us := by
    rcases hissued with hserver | ⟨d, hpending⟩
    · exact ⟨w.db.serverSeq, Or.inl rfl, hschema.causal.server, fun x hx => Or.inl hx, hserver⟩
    · exact ⟨w.db.viewSeq d, Or.inr ⟨d, rfl⟩, hschema.views d,
        fun x hx => Replica.issued_of_mem_viewSeq hx, List.mem_append_right _ hpending⟩
  have hsame : ∀ u p, (u, .newPost key p) ∈ w.created → u = v := fun u p hu =>
    (Prod.mk.inj (hcreated.unique _ hu _ hv key p post rfl rfl)).1
  have hkey := mem_children_of_newPost hmem
  obtain ⟨u, q, p, hu, hp, hpicture⟩ := hintact _ hus key hkey
  obtain ⟨u', q', p', hu', -, hp', hpicture'⟩ := exists_record hcreated hcausal hall hkey
  obtain rfl := hsame u q hu
  obtain rfl := hsame u' q' hu'
  obtain rfl := Except.ok.inj (hp.symm.trans hp')
  exact hnot (hpicture'.symm.trans hpicture)

theorem accepted_step (ha : Accepted a) (h : w.perform c a = some (.ok w')) :
    accepted.step w (c, a) = some w' :=
  Machine.restrict_step.mpr ⟨ha, by simp [machine, step, h]⟩

/-- Somebody can sign up on a device where nobody is signed in. -/
theorem exists_session (w : World ι) (d : ι) : ∃ as w' uid,
    accepted.run w as = some w' ∧ (w'.app d).currentUser = some uid ∧
      (w'.clients d).uploaded = (w.clients d).uploaded ∧ w'.storage = w.storage := by
  cases huser : (w.app d).currentUser with
  | some uid => exact ⟨[], w, uid, rfl, huser, rfl, rfl⟩
  | none =>
      obtain ⟨uid, huid⟩ := Infinite.exists_notMem_finset w.accounts.toFinset
      have hnew : uid ∉ w.accounts := by simpa using huid
      let user : NewUser := ⟨"", "", ""⟩
      let w₁ := w.modify d fun client => { client with signUps := client.signUps ++ [user] }
      have hsignUp : w.perform d (.signUp user) = some (.ok w₁) := rfl
      have hcreated : w₁.perform d (.accountCreated (w.clients d).signUps.length uid) =
          some (.ok ({ w₁ with accounts := uid :: w₁.accounts }.modify d fun client =>
            { client with
              app := client.app.userCreated uid
              signUps := client.signUps.eraseIdx (w.clients d).signUps.length
              signedUp := client.signedUp ++ [user] })) := by
        have hlast : (w₁.clients d).signUps[(w.clients d).signUps.length]? = some user := by
          simp [w₁]
        simp only [perform]
        rw [if_neg (show uid ∉ w₁.accounts from hnew), hlast]
        rfl
      exact ⟨[(d, .signUp user), (d, .accountCreated (w.clients d).signUps.length uid)], _, uid,
        Machine.run_cons_eq_some.mpr ⟨w₁, accepted_step trivial hsignUp,
          Machine.run_cons_eq_some.mpr ⟨_, accepted_step trivial hcreated, rfl⟩⟩,
        by simp [App.userCreated], by simp [w₁], rfl⟩

/-- An upload whose picture is stored can become a post. -/
theorem exists_completion {d : ι} {v : Upload} (hv : v ∈ (w.clients d).uploaded) :
    ∃ as w' key post, accepted.run w as = some w' ∧ w'.storage = w.storage ∧
      (v, .newPost key post) ∈ w'.created ∧ w'.db.Issued (.newPost key post) := by
  obtain ⟨as, w₁, uid, hrun, huid, huploaded, hstorage⟩ := exists_session w d
  obtain ⟨key, hkey⟩ := exists_freshKey w₁
  obtain ⟨i, hi⟩ := List.mem_iff_getElem?.mp (huploaded ▸ hv)
  let w₂ : World ι := { w₁ with
    keys := key :: w₁.keys
    created := (v, .newPost key (v.post uid)) :: w₁.created }
  let w₃ := (w₂.modify d fun client =>
    { client with uploaded := client.uploaded.eraseIdx i }).issue d (.newPost key (v.post uid))
  have hdone : w₁.perform d (.uploadSucceeds i key) = some (.ok w₃) := by
    simp only [perform]
    rw [if_pos hkey, hi, Option.map_some, Upload.succeeded_eq_ok.mpr ⟨uid, huid, rfl⟩]
    rfl
  have hqueue : w₃.db.pending d = w₁.db.pending d ++ [.newPost key (v.post uid)] :=
    Function.update_self ..
  exact ⟨as ++ [(d, .uploadSucceeds i key)], w₃, key, v.post uid,
    Machine.run_snoc_eq_some.mpr ⟨w₁, hrun,
      accepted_step (a := .uploadSucceeds i key) trivial hdone⟩, hstorage,
    List.mem_cons_self, Or.inr ⟨d, by simp [hqueue]⟩⟩

/-- What the arrival of a picture does. -/
theorem Step.pictureStored_spec {i : ℕ} (h : Step w c (.pictureStored i) w') :
    ∃ u, (w.clients c).uploads[i]? = some u ∧ w'.Live u ∧
      w'.storage = Function.update w.storage u.imageRef (some u.data) ∧
      ∀ v, w.Live v → w'.Live v := by
  cases h with
  | @pictureStored _ u hu =>
      refine ⟨u, hu, Or.inl ⟨c, ?_⟩, rfl, fun v hv => hv.imp_left ?_⟩
      · rw [clients_modify_self]
        exact List.mem_append_right _ (List.mem_singleton_self u)
      · rintro ⟨d, hv⟩
        refine ⟨d, ?_⟩
        by_cases hd : d = c
        · subst hd
          rw [clients_modify_self]
          exact List.mem_append_left _ hv
        · rw [clients_modify_of_ne _ _ hd]
          exact hv
  | trapped htrap =>
      obtain ⟨u, -, htrap⟩ := Option.map_eq_some_iff.mp htrap
      cases htrap

/-- A picture that arrives against the condition leaves a live upload without its
picture. -/
theorem PictureInv.exists_not_pictured (h : PictureInv w) (hst : Step w c a w')
    (hbreak : ¬ KeepsPictures w (c, a)) : ∃ v, w'.Live v ∧ ¬ w'.Pictured v := by
  cases a with
  | pictureStored i =>
      obtain ⟨u, hu, hlive, hstorage, hkept⟩ := hst.pictureStored_spec
      by_cases hsize : u.data.length ≤ maxSize
      · -- a live upload had another picture there
        obtain ⟨v, hv, href, hne⟩ : ∃ v, w.Live v ∧ v.imageRef = u.imageRef ∧
            v.submission.selectedImage ≠ u.submission.selectedImage := by
          by_contra hnone
          push Not at hnone
          exact hbreak fun u' hu' => by
            obtain rfl := Option.some.inj (hu.symm.trans hu')
            exact ⟨hsize, hnone⟩
        refine ⟨v, hkept v hv, fun hpictured => hne ?_⟩
        have himage := image_of_stored hstorage (h.encoded c u (List.mem_of_getElem? hu)) hsize href
        exact Option.some.inj (hpictured.symm.trans himage)
      · refine ⟨u, hlive, fun hpictured => hsize ?_⟩
        obtain ⟨data, hdata, -⟩ := Option.bind_eq_some_iff.mp hpictured
        obtain ⟨hstored, hle⟩ := getData_eq_some.mp hdata
        rw [hstorage, Function.update_self] at hstored
        exact Option.some.inj hstored ▸ hle
  | _ => exact absurd trivial hbreak

theorem pictureInv_of_run {as : List (ι × ClientAction)}
    (hrun : accepted.run initial as = some w)
    (hg : accepted.Guarded KeepsPictures (initial : World ι) as) : PictureInv w := by
  have hinv : CreatedInv w ∧ PictureInv w := hg.run_invariant
    (I := fun w => CreatedInv w ∧ PictureInv w) (fun w a w' hw hg hst => by
      have hst := step_cases (Machine.restrict_step.mp hst).2
      exact ⟨hw.1.step hst, hw.2.step hw.1 hg hst⟩) ⟨createdInv_initial, pictureInv_initial⟩ hrun
  exact hinv.2

/-- **Picture integrity.** In every run of any number of devices, every record under
`Posts` shows the picture that was submitted for it, at the server and in every view, as
long as each picture that arrives in Storage can be downloaded and replaces no other
picture of a live upload. A picture that arrives otherwise can always go on to be missing
from a post. -/
theorem pictures_intact :
    accepted.ExactGuard (initial : World ι) KeepsPictures PicturesIntact where
  safe as w hrun hg := by
    obtain ⟨hschema, hcreated⟩ := invariants_of_run hrun
    exact (pictureInv_of_run hrun hg).picturesIntact hschema hcreated
  sharp as w a w' hrun hg hst hbreak := by
    obtain ⟨v, hlive, hnot⟩ := (pictureInv_of_run hrun hg).exists_not_pictured
      (step_cases (Machine.restrict_step.mp hst).2) hbreak
    have hrun' := Machine.run_snoc_eq_some.mpr ⟨w, hrun, hst⟩
    rcases hlive with ⟨d, hv⟩ | ⟨key, post, hv, hissued⟩
    · -- its completion makes a post with the wrong picture
      obtain ⟨bs, w'', key, post, hbs, hstorage, hv, hissued⟩ := exists_completion hv
      obtain ⟨hschema, hcreated⟩ :=
        invariants_of_run (Machine.run_append_eq_some.mpr ⟨w', hrun', hbs⟩)
      refine ⟨bs, w'', hbs, not_picturesIntact hschema hcreated hv hissued ?_⟩
      rwa [Pictured, hstorage]
    · obtain ⟨hschema, hcreated⟩ := invariants_of_run hrun'
      exact ⟨[], w', rfl, not_picturesIntact hschema hcreated hv hissued hnot⟩

end World

/-! ### Two posts of one name -/

namespace World

attribute [local instance] Platform.reference

/-- The pictures submitted for the posts so far, latest first. -/
def submitted (w : World ℕ) : List (Key × UIImage) :=
  w.created.filterMap fun x => match x.2 with
    | .newPost key _ => some (key, x.1.submission.selectedImage)
    | _ => none

/-- The picture shown for a post at the server. -/
def shown (w : World ℕ) (key : Key) : Option UIImage :=
  (fetchedPost ⟨key, w.serverTree.sub ["Posts", key]⟩).toOption.bind (pictureOf w.storage)

/-- Ann posts another event of the same name, but for a blank, with another picture. The
first post shows the second picture. -/
theorem picture_replaced : ∃ w : World ℕ,
    accepted.run initial (annSignsUp ++ annPosts ++ [(0, .arrive), (0, .arrive),
        (0, .newPostWithImage ⟨⟨[2]⟩, "Party ", "at ten", "Feb 28, 10:00 PM"⟩),
        (0, .pictureStored 0)]) = some w ∧
      submitted w = [("-L0", ⟨[1]⟩)] ∧ shown w "-L0" = some ⟨[2]⟩ ∧ ¬ PicturesIntact w := by
  have hrun : (accepted.run (initial : World ℕ) (annSignsUp ++ annPosts ++ [(0, .arrive),
      (0, .arrive), (0, .newPostWithImage ⟨⟨[2]⟩, "Party ", "at ten", "Feb 28, 10:00 PM"⟩),
      (0, .pictureStored 0)])).map (fun w => (submitted w, shown w "-L0",
        decide ("-L0" ∈ (w.serverTree.sub ["Posts"]).children))) =
      some ([("-L0", ⟨[1]⟩)], some ⟨[2]⟩, true) := by decide
  obtain ⟨w, hw, hfacts⟩ := Option.map_eq_some_iff.mp hrun
  simp only [Prod.mk.injEq, decide_eq_true_eq] at hfacts
  obtain ⟨hsubmitted, hshown, hkey⟩ := hfacts
  refine ⟨w, hw, hsubmitted, hshown, fun h => ?_⟩
  obtain ⟨u, post, p, hu, hp, hpicture⟩ := h _ (Or.inl rfl) "-L0" hkey
  have hmem : ("-L0", u.submission.selectedImage) ∈ submitted w :=
    List.mem_filterMap.mpr ⟨_, hu, rfl⟩
  have hfirst : u.submission.selectedImage = ⟨[1]⟩ := by simpa [hsubmitted] using hmem
  have hsecond : some u.submission.selectedImage = some ⟨[2]⟩ := by
    rw [← hpicture, ← hshown, shown, hp]
    rfl
  rw [hfirst] at hsecond
  exact absurd hsecond (by decide)

end World

end MDBSocials
