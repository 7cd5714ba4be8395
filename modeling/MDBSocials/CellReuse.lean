import MDBSocials.Cells

/-!
# Cells That Are Used Again

A cell object that is dequeued again stands for another row, and the completions that captured
it do not notice. What they bring was asked for another post. It does no harm when the post of
the new row asks for the same: its picture has the same location, or it has the same poster, or
it is the same post.

## Main results

* `landsHome_of_keptFor`: completions come to such a post when the cell object has not been used
  again.
* `cells_show_own`: as long as all completions do, every cell shows its own post's contents or
  nothing; and a completion that does not can always bring what is wrong there, whatever was
  brought before.
* `cell_shows_other`: a cell object used again before the name of a poster comes.
-/

namespace MDBSocials

/-! ### What comes to a cell -/

namespace Sources

variable [Platform] {E : Sources}

/-- The cell object of a completion's request stands for no row, or for a post whose picture,
poster or interested users the request asked for, unless the request has failed. -/
def LandsHome (s : App) : Action → Prop
  | .pictureReply q (some _) => ∀ r ∈ s.bound q.cell, ∃ url ∈ (s.objects r).imageUrl,
      q.reference ∈ Platform.referenceForURL url
  | .userReply q (some _) => ∀ r ∈ s.bound q.cell, (s.objects r).posterId = some q.posterId
  | .interestedReply q _ => ∀ r ∈ s.bound q.cell, (s.objects r).id = some q.postId
  | _ => True

instance (s : App) (a : Action) : Decidable (LandsHome s a) := by
  rcases a
  case pictureReply q data => rcases data <;> dsimp only [LandsHome] <;> infer_instance
  case userReply q node => rcases node <;> dsimp only [LandsHome] <;> infer_instance
  all_goals
    dsimp only [LandsHome]
    infer_instance

/-- What a request asked for is right for a post that asks for the same. -/
theorem landsOwn_of_landsHome {s : App} {a : Action} (ha : E.Answers a) (hhome : LandsHome s a) :
    E.LandsOwn s a := by
  cases a with
  | pictureReply q data =>
      cases data with
      | none => trivial
      | some data =>
          intro r hr image himage
          obtain ⟨url, hurl, href⟩ := hhome r hr
          exact ⟨url, hurl, _, href, ha image himage⟩
  | userReply q node =>
      cases node with
      | none => trivial
      | some node =>
          intro r hr user huser name hname
          exact ⟨q.posterId, hhome r hr, ha user huser name hname⟩
  | interestedReply q node =>
      intro r hr users husers
      exact ⟨q.postId, hhome r hr, ha users husers⟩
  | _ => trivial

/-- The cell object of a completion's request has not been used again for another post. -/
def KeptFor (s : App) : Action → Prop
  | .pictureReply q _ => ∀ r ∈ s.bound q.cell, r = q.post
  | .userReply q _ => ∀ r ∈ s.bound q.cell, r = q.post
  | .interestedReply q _ => ∀ r ∈ s.bound q.cell, (s.objects r).id = some q.postId
  | _ => True

/-- A request asked for what its own post names. -/
theorem landsHome_of_keptFor {s t : App} {a : Action} (hs : E.CachesOwn s)
    (hst : s.step a = some t) (hkept : KeptFor s a) : LandsHome s a := by
  have hst := App.step_eq_some.mp hst
  cases a with
  | pictureReply q data =>
      obtain ⟨hq, -⟩ := Option.ite_none_right_eq_some.mp hst
      cases data with
      | none => trivial
      | some data =>
          intro r hr
          obtain rfl := hkept r hr
          exact hs.pictures q hq
  | userReply q node =>
      obtain ⟨hq, -⟩ := Option.ite_none_right_eq_some.mp hst
      cases node with
      | none => trivial
      | some node =>
          intro r hr
          obtain rfl := hkept r hr
          exact hs.users q hq
  | interestedReply q node => exact hkept
  | _ => trivial

/-! ### What a completion can bring -/

/-- Completions of one request, neither of which has failed. -/
inductive SameRequest : Action → Action → Prop
  | picture (q : PictureRequest) (data data' : Data) :
      SameRequest (.pictureReply q (some data)) (.pictureReply q (some data'))
  | user (q : UserRequest) (node node' : Node) :
      SameRequest (.userReply q (some node)) (.userReply q (some node'))
  | interested (q : InterestedRequest) (node node' : Node) :
      SameRequest (.interestedReply q node) (.interestedReply q node')

end Sources

namespace Action

variable [Platform]

/-- The picture that a completion brings, and its location. -/
def pictureBrought : Action → Option (StoragePath × UIImage)
  | .pictureReply q (some data) => (Platform.imageOfData data).map fun image =>
      (q.reference, image)
  | _ => none

/-- The name that a completion brings, and its user. -/
def nameBrought : Action → Option (Uid × String)
  | .userReply q (some node) =>
      ((userOfSnapshot q.posterId node).toOption.bind UserModel.username).map fun name =>
        (q.posterId, name)
  | _ => none

/-- The number of interested users that a completion brings, and their post. -/
def countBrought : Action → Option (Key × ℕ)
  | .interestedReply q node => (interestedUsers node).toOption.map fun users =>
      (q.postId, users.length)
  | _ => none

end Action

namespace Sources

variable [Platform] {as : List Action} {s : App} {r : PostRef}

/-- Services that hold what the completions of a run have brought, and nothing else. -/
def brought (as : List Action) : Sources where
  picture ref image := (ref, image) ∈ as.filterMap Action.pictureBrought
  username uid name := (uid, name) ∈ as.filterMap Action.nameBrought
  count postId count := (postId, count) ∈ as.filterMap Action.countBrought

theorem answers_brought {a : Action} (ha : a ∈ as) : (brought as).Answers a := by
  cases a with
  | pictureReply q data =>
      cases data with
      | none => trivial
      | some data =>
          intro image himage
          exact List.mem_filterMap.mpr ⟨_, ha, congrArg (Option.map _) himage⟩
  | userReply q node =>
      cases node with
      | none => trivial
      | some node =>
          intro user huser name hname
          exact List.mem_filterMap.mpr
            ⟨_, ha, congrArg (Option.map _) (Option.bind_eq_some_iff.mpr ⟨user, huser, hname⟩)⟩
  | interestedReply q node =>
      intro users husers
      exact List.mem_filterMap.mpr ⟨_, ha, congrArg (Option.map _) husers⟩
  | _ => trivial

omit [Platform] in
/-- What the last completion is the first to bring was asked for by its request. -/
theorem eq_of_brought {α β : Type} {f : Action → Option (α × β)} {a : Action} {x y : α} {v : β}
    (hnew : v ∉ (as.filterMap f).map Prod.snd) (ha : f a = some (y, v))
    (h : (x, v) ∈ (as ++ [a]).filterMap f) : x = y := by
  rw [List.filterMap_append, List.mem_append] at h
  rcases h with h | h
  · exact absurd (List.mem_map_of_mem h) hnew
  · simpa [ha] using h

omit [Platform] in
/-- A node can have any number of interested users. -/
theorem exists_interests (n : ℕ) : ∃ t : Node, Interests t ∧ (userIds t).length = n := by
  induction n with
  | zero => exact ⟨.empty, .empty, rfl⟩
  | succ n ih =>
      obtain ⟨t, ht, hlength⟩ := ih
      obtain ⟨key, hkey, hdigits⟩ := exists_key t.children
      refine ⟨_, ht.set hdigits "", (userIds_set hkey "").length_eq.trans ?_⟩
      rw [List.length_cons, hlength]

/-- A picture that is wrong for the post of the cell. -/
theorem exists_wrong_picture {q : PictureRequest} (hq : q ∈ s.pictureRequests)
    (hr : s.bound q.cell = some r) (hurl : ∀ url ∈ (s.objects r).imageUrl,
      q.reference ∉ Platform.referenceForURL url)
    {data : Data} {image : UIImage} (himage : image ∈ Platform.imageOfData data)
    (hnew : image ∉ (as.filterMap Action.pictureBrought).map Prod.snd) :
    ∃ t, s.step (.pictureReply q (some data)) = some t ∧
      ¬ (brought (as ++ [.pictureReply q (some data)])).LandsOwn s
        (.pictureReply q (some data)) := by
  refine ⟨_, App.step_eq_some.mpr (if_pos hq), fun h => ?_⟩
  obtain ⟨url, hmem, ref, href, hbrought⟩ := h r hr image himage
  have hbrings : Action.pictureBrought (.pictureReply q (some data)) =
      some (q.reference, image) := congrArg (Option.map _) himage
  obtain rfl : ref = q.reference := eq_of_brought hnew hbrings hbrought
  exact hurl url hmem href

/-- A name that is wrong for the post of the cell. -/
theorem exists_wrong_name {q : UserRequest} (hq : q ∈ s.userRequests)
    (hr : s.bound q.cell = some r) (hposter : (s.objects r).posterId ≠ some q.posterId)
    (as : List Action) : ∃ node t, s.step (.userReply q (some node)) = some t ∧
      ¬ (brought (as ++ [.userReply q (some node)])).LandsOwn s (.userReply q (some node)) := by
  obtain ⟨name, hname⟩ := Infinite.exists_notMem_finset
    ((as.filterMap Action.nameBrought).map Prod.snd).toFinset
  have hread := (NewUser.isUser_node ⟨"", name, ""⟩).userOfSnapshot q.posterId
  have hreply := App.userReply_some_eq_ok (s := s).mpr ⟨_, name, hread, rfl, rfl⟩
  refine ⟨_, _, App.step_eq_some.mpr ((if_pos hq).trans (congrArg some hreply)), fun h => ?_⟩
  obtain ⟨posterId, hid, hbrought⟩ := h r hr _ (toOption_eq_some.mpr hread) name rfl
  have hbrings : Action.nameBrought (.userReply q (some (NewUser.node ⟨"", name, ""⟩))) =
      some (q.posterId, name) := by
    simp [Action.nameBrought, hread, Except.toOption]
  obtain rfl : posterId = q.posterId :=
    eq_of_brought (List.mem_toFinset.not.mp hname) hbrings hbrought
  exact hposter hid

/-- A number that is wrong for the post of the cell. -/
theorem exists_wrong_count {q : InterestedRequest} (hq : q ∈ s.interestedRequests)
    (hr : s.bound q.cell = some r) (hpost : (s.objects r).id ≠ some q.postId)
    (as : List Action) : ∃ node t, s.step (.interestedReply q node) = some t ∧
      ¬ (brought (as ++ [.interestedReply q node])).LandsOwn s (.interestedReply q node) := by
  obtain ⟨n, hn⟩ := Infinite.exists_notMem_finset
    ((as.filterMap Action.countBrought).map Prod.snd).toFinset
  obtain ⟨node, hnode, rfl⟩ := exists_interests n
  have hread := hnode.interestedUsers
  have hreply := App.interestedReply_eq_ok (s := s) (q := q).mpr ⟨_, hread, rfl⟩
  refine ⟨_, _, App.step_eq_some.mpr ((if_pos hq).trans (congrArg some hreply)), fun h => ?_⟩
  obtain ⟨postId, hid, hbrought⟩ := h r hr _ (toOption_eq_some.mpr hread)
  have hbrings : Action.countBrought (.interestedReply q node) =
      some (q.postId, (userIds node).length) := by
    simp [Action.countBrought, hread, Except.toOption]
  obtain rfl : postId = q.postId :=
    eq_of_brought (List.mem_toFinset.not.mp hn) hbrings hbrought
  exact hpost hid

/-- **A completion that comes to another post** can bring what is wrong there, as long as there
are always more pictures. -/
theorem exists_wrong_reply {a : Action} {t : App} (hst : s.step a = some t)
    (hbreak : ¬ LandsHome s a) (as : List Action)
    (hpictures : ∀ images : List UIImage, ∃ data, ∃ image ∈ Platform.imageOfData data,
      image ∉ images) :
    ∃ a' t', SameRequest a a' ∧ s.step a' = some t' ∧
      ¬ (brought (as ++ [a'])).LandsOwn s a' := by
  have hst := App.step_eq_some.mp hst
  cases a with
  | pictureReply q data =>
      cases data with
      | none => exact absurd trivial hbreak
      | some data =>
          simp only [LandsHome, not_forall, not_exists, not_and] at hbreak
          obtain ⟨r, hr, hurl⟩ := hbreak
          obtain ⟨hq, -⟩ := Option.ite_none_right_eq_some.mp hst
          obtain ⟨data', image, himage, hnew⟩ :=
            hpictures ((as.filterMap Action.pictureBrought).map Prod.snd)
          obtain ⟨t', hst', hwrong⟩ := exists_wrong_picture hq hr hurl himage hnew
          exact ⟨_, t', .picture q data data', hst', hwrong⟩
  | userReply q node =>
      cases node with
      | none => exact absurd trivial hbreak
      | some node =>
          simp only [LandsHome, not_forall] at hbreak
          obtain ⟨r, hr, hposter⟩ := hbreak
          obtain ⟨hq, -⟩ := Option.ite_none_right_eq_some.mp hst
          obtain ⟨node', t', hst', hwrong⟩ := exists_wrong_name hq hr hposter as
          exact ⟨_, t', .user q node node', hst', hwrong⟩
  | interestedReply q node =>
      simp only [LandsHome, not_forall] at hbreak
      obtain ⟨r, hr, hpost⟩ := hbreak
      obtain ⟨hq, -⟩ := Option.ite_none_right_eq_some.mp hst
      obtain ⟨node', t', hst', hwrong⟩ := exists_wrong_count hq hr hpost as
      exact ⟨_, t', .interested q node node', hst', hwrong⟩
  | _ => exact absurd trivial hbreak

/-! ### All runs -/

/-- Where all completions come home, cells show their own posts. -/
theorem always_cellsShowOwn {u : Option Uid} {view : Node} (E : Sources)
    (has : ∀ a ∈ as, E.Answers a)
    (hhome : App.machine.Guarded LandsHome (App.launch u view) as) :
    App.machine.Always E.CellsShowOwn (App.launch u view) as :=
  hhome.always (A := E.Answers) (I := E.CachesOwn) (fun _ _ _ ha hs hst => hs.step ha hst)
    (fun _ _ _ ha hs hown hland hst => (hown.step hs hst).mpr (landsOwn_of_landsHome ha hland))
    (cachesOwn_launch u view) nofun has

/-- **Cells and posts.** In every run of the application whose completions bring what the
services hold, in whatever order, each cell shows its own post's contents or nothing in every
state, as long as no completion comes to a cell object that stands for a post of which its
request asked nothing. A completion that does can bring what is wrong there: some services hold
all that was brought before, and their answer to the request leaves a cell that shows what is
not its post's. -/
theorem cells_show_own (u : Option Uid) (view : Node) {as : List Action}
    (hhome : App.machine.Guarded LandsHome (App.launch u view) as) :
    (∀ E : Sources, (∀ a ∈ as, E.Answers a) →
      App.machine.Always E.CellsShowOwn (App.launch u view) as) ∧
    ((∀ images : List UIImage, ∃ data, ∃ image ∈ Platform.imageOfData data, image ∉ images) →
      ∀ s a t, App.machine.run (App.launch u view) as = some s → s.step a = some t →
        ¬ LandsHome s a → ∃ (E : Sources) (a' : Action) (t' : App), SameRequest a a' ∧
          (∀ b ∈ as ++ [a'], E.Answers b) ∧ s.step a' = some t' ∧ ¬ E.CellsShowOwn t') := by
  refine ⟨fun E has => always_cellsShowOwn E has hhome, fun hpictures s a t hrun hst hbreak => ?_⟩
  obtain ⟨a', t', hsame, hst', hwrong⟩ := exists_wrong_reply hst hbreak as hpictures
  have hall : ∀ b ∈ as ++ [a'], (brought (as ++ [a'])).Answers b := fun b => answers_brought
  have has : ∀ b ∈ as, (brought (as ++ [a'])).Answers b := fun b hb =>
    hall b (List.mem_append_left _ hb)
  have hown := (always_cellsShowOwn _ has hhome).of_run hrun
  have hcaches := (cachesOwn_launch u view).run has hrun
  exact ⟨_, a', t', hsame, hall, hst', fun h => hwrong ((hown.step hcaches hst').mp h)⟩

end Sources

/-! ### A cell that is used again -/

namespace Sources

/-- What the services hold while nothing is written. -/
def ofServices [Platform] (storage : StoragePath → Option Data) (db : Node) : Sources where
  picture ref image := (getData storage ref).bind Platform.imageOfData = some image
  username uid name :=
    (userOfSnapshot uid (db.sub ["User", uid])).toOption.bind UserModel.username = some name
  count postId count :=
    (interestedUsers (db.sub ["Posts", postId, "Interested"])).toOption.map List.length = some count

/-- Ann's party and Bob's picnic. -/
def twoPosts : Node :=
  applyWrites .empty [App.partyPost, App.picnicPost,
    .createNewUser "ann" ⟨"Ann", "ann1", "ann@x.org"⟩,
    .createNewUser "bob" ⟨"Bob", "bob1", "bob@x.org"⟩]

/-- Both posts are in the feed, and the party is rendered in a cell. -/
def rendersParty : List Action := [.viewWillAppear, .deliver 0, .deliver 0, .cellForRowAt 1 0]

/-- The name of Ann for the cell in which her party was rendered. -/
def annsName : Action := .userReply ⟨0, 0, "ann"⟩ (some (twoPosts.sub ["User", "ann"]))

attribute [local instance] Platform.reference

theorem annsName_answers : (ofServices (fun _ => none) twoPosts).Answers annsName := by
  intro user huser name hname
  exact Option.bind_eq_some_iff.mpr ⟨user, huser, hname⟩

theorem cells_show_own_party :
    (∃ s, App.machine.run (App.launch (some "ann") twoPosts) (rendersParty ++ [annsName]) =
        some s ∧
      (s.cells 0).posterNameLabel = some "Created by: ann1" ∧
      App.machine.Always (ofServices (fun _ => none) twoPosts).CellsShowOwn
        (App.launch (some "ann") twoPosts) (rendersParty ++ [annsName])) ∧
    ∃ (s t' : App) (E : Sources) (a' : Action),
      App.machine.run (App.launch (some "ann") twoPosts) (rendersParty ++ [.cellForRowAt 0 0]) =
        some s ∧
      SameRequest annsName a' ∧ (∀ b ∈ rendersParty ++ [.cellForRowAt 0 0] ++ [a'], E.Answers b) ∧
      s.step a' = some t' ∧ ¬ E.CellsShowOwn t' := by
  constructor
  · have hrun : (App.machine.run (App.launch (some "ann") twoPosts)
        (rendersParty ++ [annsName])).map (fun s => (s.cells 0).posterNameLabel) =
        some (some "Created by: ann1") := by decide
    obtain ⟨s, hs, hlabel⟩ := Option.map_eq_some_iff.mp hrun
    have has : ∀ a ∈ rendersParty ++ [annsName],
        (ofServices (fun _ => none) twoPosts).Answers a :=
      List.forall_mem_append.mpr
        ⟨by simp [rendersParty, Answers], List.forall_mem_singleton.mpr annsName_answers⟩
    exact ⟨s, hs, hlabel, (cells_show_own _ _ (by decide)).1 _ has⟩
  · have hrun : (App.machine.run (App.launch (some "ann") twoPosts)
        (rendersParty ++ [.cellForRowAt 0 0])).map (fun s =>
          ((s.step annsName).isSome, decide (LandsHome s annsName))) = some (true, false) := by
      decide
    obtain ⟨s, hs, hfacts⟩ := Option.map_eq_some_iff.mp hrun
    obtain ⟨hstep, hhome⟩ := Prod.mk.inj hfacts
    obtain ⟨t, ht⟩ := Option.isSome_iff_exists.mp hstep
    have hpictures : ∀ images : List UIImage, ∃ data, ∃ image ∈ Platform.imageOfData data,
        image ∉ images := by
      intro images
      obtain ⟨data, hdata⟩ := Infinite.exists_notMem_finset (images.map UIImage.bitmap).toFinset
      exact ⟨data, ⟨data⟩, rfl, fun hmem =>
        hdata (List.mem_toFinset.mpr (List.mem_map_of_mem hmem))⟩
    obtain ⟨E, a', t', hsame, hall, hst', hwrong⟩ :=
      (cells_show_own _ _ (by decide)).2 hpictures s annsName t hs ht (of_decide_eq_false hhome)
    exact ⟨s, t', E, a', hs, hsame, hall, hst', hwrong⟩

/-- The cell is used again for Bob's picnic before the name comes. -/
theorem cell_shows_other : ∃ s,
    App.machine.run (App.launch (some "ann") twoPosts)
      (rendersParty ++ [.cellForRowAt 0 0, annsName]) = some s ∧
    (∀ a ∈ rendersParty ++ [.cellForRowAt 0 0, annsName],
      (ofServices (fun _ => none) twoPosts).Answers a) ∧
    ¬ (ofServices (fun _ => none) twoPosts).CellsShowOwn s := by
  have hrun : (App.machine.run (App.launch (some "ann") twoPosts)
      (rendersParty ++ [.cellForRowAt 0 0, annsName])).map
      (fun s => (s.bound 0, (s.cells 0).posterNameLabel, (s.objects 1).posterId)) =
      some (some 1, some "Created by: ann1", some "bob") := by decide
  obtain ⟨s, hs, hfacts⟩ := Option.map_eq_some_iff.mp hrun
  simp only [Prod.mk.injEq] at hfacts
  obtain ⟨hbound, hlabel, hposter⟩ := hfacts
  refine ⟨s, hs, List.forall_mem_append.mpr ⟨by simp [rendersParty, Answers], ?_⟩,
    fun hown => ?_⟩
  · exact List.forall_mem_cons.mpr ⟨trivial, List.forall_mem_singleton.mpr annsName_answers⟩
  obtain ⟨name, ⟨posterId, hid, hname⟩, htext⟩ := (hown 0 1 hbound).posterName _ hlabel
  obtain rfl := Option.some.inj (hposter.symm.trans hid)
  have hbob : (ofServices (fun _ => none) twoPosts).username "bob" "bob1" := by rfl
  obtain rfl := Option.some.inj (hbob.symm.trans hname)
  exact absurd htext (by decide)

end Sources

end MDBSocials
