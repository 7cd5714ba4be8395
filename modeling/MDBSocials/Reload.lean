import Mathlib.Algebra.Order.Group.Multiset
import Mathlib.Tactic.Abel
import MDBSocials.CellReuse
import MDBSocials.FeedTable
import MDBSocials.Pictures

/-!
# Reloading the Feed

A reload renders each row on the screen in a cell object of its own. The completions of
the requests it starts come in any order, and each may fail. As long as nothing else
happens, what the cells and the `Post` objects end up with does not depend on the order:
`repairedCell` and `repairedPost` say what it is.

The requests are distinct because the cell objects are, and each writes into contents that
no other writes into, so that the state after some completions is a function of the set
that has come with success (`Repaired`).

## Main results

* `Laid.snoc`: what rendering one more row adds.
* `Repaired.completion`: one completion adds its own request to the set.
* `reload_repairs`: the completions all run to their ends exactly when what they bring
  can be read, and then leave each cell and each object with its own contents.
-/

namespace MDBSocials

/-! ### Requests and their completions -/

/-- A request started for a cell. -/
inductive Request
  | picture (q : PictureRequest)
  | user (q : UserRequest)
  | interested (q : InterestedRequest)
  deriving DecidableEq, Repr

/-- The requests whose completion has not run. -/
def App.requests (s : App) : List Request :=
  s.pictureRequests.map .picture ++ s.userRequests.map .user ++
    s.interestedRequests.map .interested

namespace App

@[simp] theorem picture_mem_requests {s : App} {q : PictureRequest} :
    .picture q ∈ s.requests ↔ q ∈ s.pictureRequests := by
  simp [requests]

@[simp] theorem user_mem_requests {s : App} {q : UserRequest} :
    .user q ∈ s.requests ↔ q ∈ s.userRequests := by
  simp [requests]

@[simp] theorem interested_mem_requests {s : App} {q : InterestedRequest} :
    .interested q ∈ s.requests ↔ q ∈ s.interestedRequests := by
  simp [requests]

end App

/-- The cell object that a request has captured. -/
def Request.cell : Request → CellRef
  | .picture q => q.cell
  | .user q => q.cell
  | .interested q => q.cell

section Reload

variable [Platform]

/-- The requests that rendering a post starts. -/
def requestsFor (post : Post) (r : PostRef) (c : CellRef) : List Request :=
  (App.picturesFor post r c).map .picture ++ (App.usersFor post r c).map .user ++
    (App.interestedFor post c).map .interested

/-- The completion of a request, with what the services hold unless it fails.
`getInterestedUsers` has no block for a failure. -/
def Request.completion (storage : StoragePath → Option Data) (db : Node) (succeeds : Bool) :
    Request → List Action
  | .picture q => [.pictureReply q (if succeeds then getData storage q.reference else none)]
  | .user q => [.userReply q (if succeeds then some (db.sub ["User", q.posterId]) else none)]
  | .interested q =>
      if succeeds then [.interestedReply q (db.sub ["Posts", q.postId, "Interested"])] else []

/-- The completions of requests that end in some order, `succeeds` saying which of them
with success. -/
def completions (storage : StoragePath → Option Data) (db : Node) (succeeds : Request → Bool)
    (order : List Request) : List Action :=
  order.flatMap fun q => q.completion storage db (succeeds q)

/-- What the completion of a request is handed can be read. -/
def Request.Readable (db : Node) : Request → Prop
  | .picture _ => True
  | .user q => (userOfSnapshot q.posterId (db.sub ["User", q.posterId])).toOption.isSome
  | .interested q =>
      (interestedUsers (db.sub ["Posts", q.postId, "Interested"])).toOption.isSome

/-! ### A post's own contents -/

/-- The username of a post's poster. -/
def posterNameOf (db : Node) (post : Post) : Option String := do
  let posterId ← post.posterId
  let user ← (userOfSnapshot posterId (db.sub ["User", posterId])).toOption
  user.username

/-- The number of users interested in a post. -/
def interestedCountOf (db : Node) (post : Post) : Option ℕ := do
  let postId ← post.id
  let users ← (interestedUsers (db.sub ["Posts", postId, "Interested"])).toOption
  return users.length

/-- User records and stored pictures do not change; the numbers of interested users may. -/
def Sources.unchanging (storage : StoragePath → Option Data) (db : Node) : Sources :=
  { Sources.ofServices storage db with count := fun _ _ => True }

variable (storage : StoragePath → Option Data) (db : Node)

/-- A post whose requests have ended, `succeeds` saying which of them with success: its
picture and its poster's name are there when they were, or when their requests succeeded. -/
def repairedPost (succeeds : Request → Bool) (post : Post) (r : PostRef) (c : CellRef) : Post :=
  { post with
    image :=
      if post.image.isSome ∨ ∃ q ∈ App.picturesFor post r c, succeeds (.picture q) then
        pictureOf storage post
      else none
    posterName :=
      if post.posterName.isSome ∨ ∃ q ∈ App.usersFor post r c, succeeds (.user q) then
        posterNameOf db post
      else none }

/-- The cell of a post whose requests have ended. The number of interested users is never
kept. -/
def repairedCell (succeeds : Request → Bool) (post : Post) (r : PostRef) (c : CellRef) :
    FeedTableViewCell where
  mainImageView := (repairedPost storage db succeeds post r c).image
  eventNameLabel := post.eventName
  posterNameLabel :=
    (repairedPost storage db succeeds post r c).posterName.map ("Created by: " ++ ·)
  interestedLabel :=
    if ∃ q ∈ App.interestedFor post c, succeeds (.interested q) then
      (interestedCountOf db post).map App.interestedText
    else none
  activityIndicator :=
    !(App.picturesFor post r c).any fun q =>
      succeeds (.picture q) && (getData storage q.reference).isSome

variable {storage db}

theorem ownPicture_unchanging {post : Post} {image : UIImage} :
    (Sources.unchanging storage db).OwnPicture post image ↔
      pictureOf storage post = some image := by
  simp [Sources.OwnPicture, Sources.unchanging, Sources.ofServices, pictureOf,
    Option.bind_eq_some_iff]

theorem ownName_unchanging {post : Post} {name : String} :
    (Sources.unchanging storage db).OwnName post name ↔ posterNameOf db post = some name := by
  simp [Sources.OwnName, Sources.unchanging, Sources.ofServices, posterNameOf,
    Option.bind_eq_some_iff]

/-! ### Rendering the rows -/

theorem cell_of_mem_requestsFor {post : Post} {r : PostRef} {c : CellRef} {q : Request}
    (hq : q ∈ requestsFor post r c) : q.cell = c := by
  simp only [requestsFor, List.mem_append, List.mem_map] at hq
  obtain (⟨q, hq, rfl⟩ | ⟨q, hq, rfl⟩) | ⟨q, hq, rfl⟩ := hq
  · exact (App.mem_picturesFor.mp hq).2.1
  · exact (App.mem_usersFor.mp hq).2.1
  · obtain ⟨postId, -, rfl⟩ := Option.map_eq_some_iff.mp (Option.mem_toList.mp hq)
    rfl

/-- A post starts at most one request of each kind. -/
theorem requestsFor_nodup (post : Post) (r : PostRef) (c : CellRef) :
    (requestsFor post r c).Nodup := by
  have hpictures : (App.picturesFor post r c).Nodup := by
    rw [App.picturesFor]
    split
    · exact List.nodup_nil
    · exact Option.toList_nodup _
  have husers : (App.usersFor post r c).Nodup := by
    rw [App.usersFor]
    split
    · exact List.nodup_nil
    · exact Option.toList_nodup _
  have hinterested : (App.interestedFor post c).Nodup := Option.toList_nodup _
  refine List.nodup_append'.mpr ⟨List.nodup_append'.mpr ⟨?_, ?_, ?_⟩, ?_, ?_⟩
  · exact hpictures.map fun _ _ => Request.picture.inj
  · exact husers.map fun _ _ => Request.user.inj
  · simp [List.disjoint_left]
  · exact hinterested.map fun _ _ => Request.interested.inj
  · simp [List.disjoint_left, or_imp, forall_and]

/-- Rendering a row starts its requests. -/
theorem requests_rendered (s : App) (r : PostRef) (c : CellRef) :
    (s.rendered r c).requests.Perm (s.requests ++ requestsFor (s.objects r) r c) := by
  simp only [App.requests, App.rendered, requestsFor, List.map_append, List.append_assoc]
  refine List.Perm.append_left _ (Multiset.coe_eq_coe.mp ?_)
  simp only [← Multiset.coe_add]
  abel

/-- The requests that rendering some rows starts. -/
def App.startedBy (s : App) (rows : List (ℕ × CellRef)) : List Request :=
  rows.flatMap fun v => (s.feed.posts[v.1]?).elim [] fun r => requestsFor (s.objects r) r v.2

/-- A request for a post on the screen and its cell. -/
def App.OnScreen (s : App) (q : Request) : Prop :=
  ∃ c r, s.bound c = some r ∧ q ∈ requestsFor (s.objects r) r c

theorem mem_startedBy {s : App} {rows : List (ℕ × CellRef)} {q : Request} :
    q ∈ s.startedBy rows ↔
      ∃ v ∈ rows, ∃ r, s.feed.posts[v.1]? = some r ∧ q ∈ requestsFor (s.objects r) r v.2 := by
  rw [App.startedBy, List.mem_flatMap]
  refine exists_congr fun v => and_congr_right fun _ => ?_
  cases s.feed.posts[v.1]? <;> simp

/-- The requests are distinct because the cells are. -/
theorem startedBy_nodup (s : App) {rows : List (ℕ × CellRef)}
    (hcells : (rows.map Prod.snd).Nodup) : (s.startedBy rows).Nodup := by
  have hcell : ∀ {v : ℕ × CellRef} {q : Request},
      q ∈ (s.feed.posts[v.1]?).elim [] (fun r => requestsFor (s.objects r) r v.2) →
        q.cell = v.2 := by
    intro v q hq
    cases hr : s.feed.posts[v.1]? with
    | none => simp [hr] at hq
    | some r => exact cell_of_mem_requestsFor (by simpa [hr] using hq)
  refine List.nodup_flatMap.mpr ⟨fun v _ => ?_, ?_⟩
  · cases s.feed.posts[v.1]? with
    | none => exact List.nodup_nil
    | some r => exact requestsFor_nodup _ r v.2
  · exact (List.pairwise_map.mp hcells).imp fun hne q hq hq' =>
      hne ((hcell hq).symm.trans (hcell hq'))

/-- The state after some rows have been rendered in distinct cells. -/
structure Laid (s : App) (rows : List (ℕ × CellRef)) (t : App) : Prop where
  objects : t.objects = s.objects
  posts : t.feed.posts = s.feed.posts
  bound : ∀ c r, t.bound c = some r ↔ ∃ row, (row, c) ∈ rows ∧ s.feed.posts[row]? = some r
  cells : ∀ c r, t.bound c = some r → t.cells c = (s.objects r).cell
  requests : t.requests.Perm (s.requests ++ s.startedBy rows)

theorem laid_reloadData (s : App) : Laid s [] s.reloadData where
  objects := rfl
  posts := rfl
  bound := by simp [App.reloadData]
  cells := nofun
  requests := by
    have hsame : s.reloadData.requests = s.requests := rfl
    rw [hsame, App.startedBy, List.flatMap_nil, List.append_nil]

/-- One more row, in a cell that has not been used. -/
theorem Laid.snoc {s t u : App} {rows : List (ℕ × CellRef)} {v : ℕ × CellRef}
    (h : Laid s rows t) (hv : v.2 ∉ rows.map Prod.snd)
    (hst : App.machine.step t (.cellForRowAt v.1 v.2) = some u) : Laid s (rows ++ [v]) u := by
  obtain ⟨row, c⟩ := v
  obtain ⟨-, hst⟩ := Option.ite_none_right_eq_some.mp (App.step_eq_some.mp hst)
  obtain ⟨r, hr, -, rfl⟩ := App.cellForRowAt_eq_ok.mp (Option.some.inj hst)
  rw [h.posts] at hr
  have hfresh : ∀ row', (row', c) ∉ rows := fun row' hmem =>
    hv (List.mem_map.mpr ⟨_, hmem, rfl⟩)
  have hbound : ∀ c', c' ≠ c → (t.rendered r c).bound c' = t.bound c' := fun c' hc => by
    simp [App.rendered, hc]
  have hself : (t.rendered r c).bound c = some r := by simp [App.rendered]
  refine ⟨h.objects, h.posts, fun c' r' => ?_, fun c' r' hb => ?_, ?_⟩
  · by_cases hc : c' = c
    · subst hc
      rw [hself]
      constructor
      · rintro hrr
        obtain rfl := Option.some.inj hrr
        exact ⟨row, by simp, hr⟩
      · rintro ⟨row', hmem, hr'⟩
        obtain hmem | hmem := List.mem_append.mp hmem
        · exact absurd hmem (hfresh row')
        · obtain ⟨rfl, -⟩ := Prod.mk.inj (List.mem_singleton.mp hmem)
          exact hr.symm.trans hr'
    · rw [hbound c' hc, h.bound]
      simp [hc]
  · by_cases hc : c' = c
    · subst hc
      obtain rfl := Option.some.inj (hself.symm.trans hb)
      simp [App.rendered, h.objects]
    · rw [hbound c' hc] at hb
      simpa [App.rendered, hc] using h.cells c' r' hb
  · have hstarted : s.startedBy (rows ++ [(row, c)]) =
        s.startedBy rows ++ requestsFor (s.objects r) r c := by
      simp [App.startedBy, hr]
    rw [hstarted, ← List.append_assoc]
    exact (requests_rendered t r c).trans (h.objects ▸ h.requests.append_right _)

/-- The rows on the screen have been rendered, each in a cell of its own. -/
theorem laid_run {s t : App} {rows : List (ℕ × CellRef)} (hcells : (rows.map Prod.snd).Nodup)
    (hrun : App.machine.run s.reloadData (rows.map fun v => .cellForRowAt v.1 v.2) = some t) :
    Laid s rows t := by
  induction rows using List.reverseRecOn generalizing t with
  | nil =>
      obtain rfl := Option.some.inj hrun
      exact laid_reloadData s
  | append_singleton rows v ih =>
      rw [List.map_append, List.map_singleton] at hrun hcells
      obtain ⟨u, hu, hst⟩ := Machine.run_snoc_eq_some.mp hrun
      obtain ⟨hcells, -, hdisj⟩ := List.nodup_append'.mp hcells
      exact (ih hcells hu).snoc (fun hv => hdisj hv (by simp)) hst

theorem Laid.onScreen_iff {s t : App} {rows : List (ℕ × CellRef)} (h : Laid s rows t)
    {q : Request} : t.OnScreen q ↔ q ∈ s.startedBy rows := by
  rw [mem_startedBy, App.OnScreen, h.objects]
  constructor
  · rintro ⟨c, r, hb, hq⟩
    obtain ⟨row, hmem, hr⟩ := (h.bound c r).mp hb
    exact ⟨(row, c), hmem, r, hr, hq⟩
  · rintro ⟨⟨row, c⟩, hmem, r, hr, hq⟩
    exact ⟨c, r, (h.bound c r).mpr ⟨row, hmem, hr⟩, hq⟩

/-! ### One more request has ended -/

/-- One more request has ended, with success or without. -/
def withReply (succeeded : Request → Bool) (q : Request) (succeeds : Bool) : Request → Bool :=
  fun q' => succeeded q' || (decide (q' = q) && succeeds)

omit [Platform] in
@[simp] theorem withReply_false (p : Request → Bool) (q : Request) : withReply p q false = p := by
  funext q'
  simp [withReply]

omit [Platform] in
theorem withReply_of_ne {p : Request → Bool} {q q' : Request} (hne : q' ≠ q) (b : Bool) :
    withReply p q b q' = p q' := by
  simp [withReply, hne]

variable {p p' : Request → Bool} {post : Post} {r : PostRef} {c : CellRef}

/-- Only a post's own requests matter to it. -/
theorem repairedPost_congr (h : ∀ q ∈ requestsFor post r c, p q = p' q) :
    repairedPost storage db p post r c = repairedPost storage db p' post r c := by
  have hpicture : ∀ q ∈ App.picturesFor post r c, p (.picture q) = p' (.picture q) :=
    fun q hq => h _ (by simp [requestsFor, hq])
  have huser : ∀ q ∈ App.usersFor post r c, p (.user q) = p' (.user q) :=
    fun q hq => h _ (by simp [requestsFor, hq])
  have himage : (∃ q ∈ App.picturesFor post r c, p (.picture q)) ↔
      ∃ q ∈ App.picturesFor post r c, p' (.picture q) :=
    exists_congr fun q => and_congr_right fun hq => by rw [hpicture q hq]
  have hname : (∃ q ∈ App.usersFor post r c, p (.user q)) ↔
      ∃ q ∈ App.usersFor post r c, p' (.user q) :=
    exists_congr fun q => and_congr_right fun hq => by rw [huser q hq]
  simp only [repairedPost, himage, hname]

theorem repairedCell_congr (h : ∀ q ∈ requestsFor post r c, p q = p' q) :
    repairedCell storage db p post r c = repairedCell storage db p' post r c := by
  have hpicture : ∀ q ∈ App.picturesFor post r c, p (.picture q) = p' (.picture q) :=
    fun q hq => h _ (by simp [requestsFor, hq])
  have hinterested : (∃ q ∈ App.interestedFor post c, p (.interested q)) ↔
      ∃ q ∈ App.interestedFor post c, p' (.interested q) :=
    exists_congr fun q => and_congr_right fun hq => by rw [h _ (by simp [requestsFor, hq])]
  have hloading : ((App.picturesFor post r c).any fun q =>
      p (.picture q) && (getData storage q.reference).isSome) =
      (App.picturesFor post r c).any fun q =>
        p' (.picture q) && (getData storage q.reference).isSome := by
    rw [Bool.eq_iff_iff, List.any_eq_true, List.any_eq_true]
    exact exists_congr fun q => and_congr_right fun hq => by rw [hpicture q hq]
  simp only [repairedCell, repairedPost_congr h, hinterested, hloading]

/-- Before any request has ended a post has what it had. -/
theorem repairedPost_start (himage : ∀ image ∈ post.image, pictureOf storage post = some image)
    (hname : ∀ name ∈ post.posterName, posterNameOf db post = some name) :
    repairedPost storage db (fun _ => false) post r c = post := by
  have hi : (if post.image.isSome then pictureOf storage post else none) = post.image := by
    cases h : post.image with
    | none => rfl
    | some image => exact himage image h
  have hn : (if post.posterName.isSome then posterNameOf db post else none) =
      post.posterName := by
    cases h : post.posterName with
    | none => rfl
    | some name => exact hname name h
  simp [repairedPost, hi, hn]

theorem repairedCell_start (himage : ∀ image ∈ post.image, pictureOf storage post = some image)
    (hname : ∀ name ∈ post.posterName, posterNameOf db post = some name) :
    repairedCell storage db (fun _ => false) post r c = post.cell := by
  simp only [repairedCell, repairedPost_start himage hname]
  simp [Post.cell]

/-- The download that a post starts is of its own picture. -/
theorem picturesFor_eq {q : PictureRequest} (hq : q ∈ App.picturesFor post r c) :
    App.picturesFor post r c = [q] ∧ post.image = none ∧ ∀ storage,
      pictureOf storage post = (getData storage q.reference).bind Platform.imageOfData := by
  obtain ⟨hnone, rfl, rfl, url, hurl, href⟩ := App.mem_picturesFor.mp hq
  have hurl : post.imageUrl = some url := hurl
  have href : Platform.referenceForURL url = some q.reference := href
  exact ⟨by simp [App.picturesFor, hnone, hurl, href], hnone,
    fun storage => by simp [pictureOf, hurl, href]⟩

theorem repairedPost_picture {q : PictureRequest} (hq : q ∈ App.picturesFor post r c)
    {data : Data} (hdata : getData storage q.reference = some data) :
    repairedPost storage db (withReply p (.picture q) true) post r c =
      { repairedPost storage db p post r c with image := Platform.imageOfData data } := by
  obtain ⟨hone, hnone, hpicture⟩ := picturesFor_eq hq
  simp [repairedPost, hone, hpicture, hdata, withReply]

theorem repairedCell_picture {q : PictureRequest} (hq : q ∈ App.picturesFor post r c)
    {data : Data} (hdata : getData storage q.reference = some data) :
    repairedCell storage db (withReply p (.picture q) true) post r c =
      { repairedCell storage db p post r c with
        mainImageView := Platform.imageOfData data
        activityIndicator := false } := by
  obtain ⟨hone, -, -⟩ := picturesFor_eq hq
  simp only [repairedCell, repairedPost_picture hq hdata]
  simp [hone, hdata, withReply]

/-- A download of nothing changes nothing. -/
theorem repairedPost_noPicture {q : PictureRequest} (hq : q ∈ App.picturesFor post r c)
    (hdata : getData storage q.reference = none) :
    repairedPost storage db (withReply p (.picture q) true) post r c =
      repairedPost storage db p post r c := by
  obtain ⟨hone, hnone, hpicture⟩ := picturesFor_eq hq
  simp [repairedPost, hone, hpicture, hdata, withReply]

theorem repairedCell_noPicture {q : PictureRequest} (hq : q ∈ App.picturesFor post r c)
    (hdata : getData storage q.reference = none) :
    repairedCell storage db (withReply p (.picture q) true) post r c =
      repairedCell storage db p post r c := by
  obtain ⟨hone, -, -⟩ := picturesFor_eq hq
  simp only [repairedCell, repairedPost_noPicture hq hdata]
  simp [hone, hdata, withReply]

omit [Platform] in
theorem usersFor_eq {q : UserRequest} (hq : q ∈ App.usersFor post r c) :
    App.usersFor post r c = [q] ∧ post.posterId = some q.posterId := by
  obtain ⟨hnone, rfl, rfl, hid⟩ := App.mem_usersFor.mp hq
  exact ⟨by simp [App.usersFor, hnone, hid], hid⟩

theorem repairedPost_user {q : UserRequest} (hq : q ∈ App.usersFor post r c) {user : UserModel}
    (huser : userOfSnapshot q.posterId (db.sub ["User", q.posterId]) = .ok user)
    {name : String} (hname : user.username = some name) :
    repairedPost storage db (withReply p (.user q) true) post r c =
      { repairedPost storage db p post r c with posterName := some name } := by
  obtain ⟨hone, hid⟩ := usersFor_eq hq
  have hposter : posterNameOf db post = some name := by
    simp [posterNameOf, hid, huser, hname, Except.toOption]
  simp [repairedPost, hone, hposter, withReply]

theorem repairedCell_user {q : UserRequest} (hq : q ∈ App.usersFor post r c) {user : UserModel}
    (huser : userOfSnapshot q.posterId (db.sub ["User", q.posterId]) = .ok user)
    {name : String} (hname : user.username = some name) :
    repairedCell storage db (withReply p (.user q) true) post r c =
      { repairedCell storage db p post r c with
        posterNameLabel := some ("Created by: " ++ name) } := by
  simp only [repairedCell, repairedPost_user hq huser hname]
  simp [withReply]

theorem repairedPost_interested (q : InterestedRequest) (b : Bool) :
    repairedPost storage db (withReply p (.interested q) b) post r c =
      repairedPost storage db p post r c := by
  simp [repairedPost, withReply]

theorem repairedCell_interested {q : InterestedRequest} (hq : q ∈ App.interestedFor post c)
    {users : List String}
    (husers : interestedUsers (db.sub ["Posts", q.postId, "Interested"]) = .ok users) :
    repairedCell storage db (withReply p (.interested q) true) post r c =
      { repairedCell storage db p post r c with
        interestedLabel := some (App.interestedText users.length) } := by
  obtain ⟨postId, hid, rfl⟩ := Option.map_eq_some_iff.mp (Option.mem_toList.mp hq)
  have hcount : interestedCountOf db post = some users.length := by
    simp [interestedCountOf, hid, husers, Except.toOption]
  simp only [repairedCell, repairedPost_interested]
  simp [App.interestedFor, hid, hcount, withReply]

/-! ### The state after some completions -/

/-- A screen that has been reloaded: each post on it has a cell of its own, which shows
what the object has. -/
structure Reloaded (storage : StoragePath → Option Data) (db : Node) (s : App) : Prop where
  own : (Sources.unchanging storage db).CachesOwn s
  single : ∀ c c' r, s.bound c = some r → s.bound c' = some r → c = c'
  cells : ∀ c r, s.bound c = some r → s.cells c = (s.objects r).cell

/-- What completions have made of a screen that was reloaded in `s`, `succeeded` being the
requests that have ended with success. -/
structure Repaired (storage : StoragePath → Option Data) (db : Node)
    (succeeded : Request → Bool) (s t : App) : Prop where
  bound : t.bound = s.bound
  cells : ∀ c r, s.bound c = some r →
    t.cells c = repairedCell storage db succeeded (s.objects r) r c
  shown : ∀ c r, s.bound c = some r →
    t.objects r = repairedPost storage db succeeded (s.objects r) r c
  others : ∀ r, (∀ c, s.bound c ≠ some r) → t.objects r = s.objects r

variable {s t t' : App}

theorem Reloaded.repaired (hs : Reloaded storage db s) :
    Repaired storage db (fun _ => false) s s where
  bound := rfl
  cells c r hb := by
    rw [hs.cells c r hb, repairedCell_start]
    · exact fun image himage => ownPicture_unchanging.mp (hs.own.images r image himage)
    · exact fun name hname => ownName_unchanging.mp (hs.own.names r name hname)
  shown c r hb := by
    rw [repairedPost_start]
    · exact fun image himage => ownPicture_unchanging.mp (hs.own.images r image himage)
    · exact fun name hname => ownName_unchanging.mp (hs.own.names r name hname)
  others _ _ := rfl

/-- Only the requests for what is on the screen matter. -/
theorem Repaired.congr (h : Repaired storage db p s t)
    (hp : ∀ q, s.OnScreen q → p q = p' q) : Repaired storage db p' s t where
  bound := h.bound
  cells c r hb := by
    rw [h.cells c r hb]
    exact repairedCell_congr fun q hq => hp q ⟨c, r, hb, hq⟩
  shown c r hb := by
    rw [h.shown c r hb]
    exact repairedPost_congr fun q hq => hp q ⟨c, r, hb, hq⟩
  others := h.others

theorem Repaired.of_eq (h : Repaired storage db p s t) (hbound : t'.bound = t.bound)
    (hcells : t'.cells = t.cells) (hobj : t'.objects = t.objects) :
    Repaired storage db p s t' where
  bound := hbound.trans h.bound
  cells := hcells ▸ h.cells
  shown := hobj ▸ h.shown
  others := hobj ▸ h.others

/-- A completion writes into the cell and the object of its own request. -/
theorem Repaired.update (hs : Reloaded storage db s) (h : Repaired storage db p s t)
    (hb : s.bound c = some r) {q : Request} (hq : q ∈ requestsFor (s.objects r) r c)
    {b : Bool} (hbound : t'.bound = t.bound)
    (hcells : t'.cells = Function.update t.cells c
      (repairedCell storage db (withReply p q b) (s.objects r) r c))
    (hobj : t'.objects = Function.update t.objects r
      (repairedPost storage db (withReply p q b) (s.objects r) r c)) :
    Repaired storage db (withReply p q b) s t' := by
  have hother : ∀ c' r', c' ≠ c → ∀ q' ∈ requestsFor (s.objects r') r' c',
      p q' = withReply p q b q' := by
    intro c' r' hc q' hq'
    refine (withReply_of_ne (fun hqq => hc ?_) b).symm
    rw [← cell_of_mem_requestsFor hq', hqq, cell_of_mem_requestsFor hq]
  refine ⟨hbound.trans h.bound, fun c' r' hb' => ?_, fun c' r' hb' => ?_, fun r' hr' => ?_⟩
  · by_cases hc : c' = c
    · subst hc
      obtain rfl := Option.some.inj (hb.symm.trans hb')
      rw [hcells, Function.update_self]
    · rw [hcells, Function.update_of_ne hc, h.cells c' r' hb']
      exact repairedCell_congr (hother c' r' hc)
  · by_cases hc : c' = c
    · subst hc
      obtain rfl := Option.some.inj (hb.symm.trans hb')
      rw [hobj, Function.update_self]
    · have hr : r' ≠ r := fun hr => hc (hs.single c' c r (hr ▸ hb') hb)
      rw [hobj, Function.update_of_ne hr, h.shown c' r' hb']
      exact repairedPost_congr (hother c' r' hc)
  · have hr : r' ≠ r := fun hr => hr' c (hr ▸ hb)
    rw [hobj, Function.update_of_ne hr]
    exact h.others r' hr'

/-- **One completion** adds its own request to those that have ended. -/
theorem Repaired.completion (hs : Reloaded storage db s) (h : Repaired storage db p s t)
    {q : Request} (hq : s.OnScreen q) {b : Bool}
    (hrun : App.machine.run t (q.completion storage db b) = some t') :
    Repaired storage db (withReply p q b) s t' := by
  obtain ⟨c, r, hb, hmem⟩ := hq
  cases q with
  | picture q =>
      have hown : q ∈ App.picturesFor (s.objects r) r c := by
        simpa [requestsFor] using hmem
      obtain ⟨-, hc, hr, -⟩ := App.mem_picturesFor.mp hown
      obtain ⟨u, hst, hrun⟩ := Machine.run_cons_eq_some.mp hrun
      obtain rfl := Option.some.inj hrun
      obtain ⟨-, hst⟩ := Option.ite_none_right_eq_some.mp (App.step_eq_some.mp hst)
      obtain rfl := Except.ok.inj (Option.some.inj hst)
      cases b with
      | false => exact (withReply_false p _).symm ▸ h.of_eq rfl rfl rfl
      | true =>
          cases hdata : getData storage q.reference with
          | none =>
              refine h.update hs hb hmem rfl ?_ ?_
              · rw [repairedCell_noPicture hown hdata, ← h.cells c r hb, Function.update_eq_self]
                rfl
              · rw [repairedPost_noPicture hown hdata, ← h.shown c r hb, Function.update_eq_self]
                rfl
          | some data =>
              rw [if_pos rfl, App.pictureReply_some]
              refine h.update hs hb hmem rfl ?_ ?_
              · rw [repairedCell_picture hown hdata, ← h.cells c r hb, hc]
              · rw [repairedPost_picture hown hdata, ← h.shown c r hb, hr]
  | user q =>
      have hown : q ∈ App.usersFor (s.objects r) r c := by
        simpa [requestsFor] using hmem
      obtain ⟨-, hc, hr, -⟩ := App.mem_usersFor.mp hown
      obtain ⟨u, hst, hrun⟩ := Machine.run_cons_eq_some.mp hrun
      obtain rfl := Option.some.inj hrun
      obtain ⟨-, hst⟩ := Option.ite_none_right_eq_some.mp (App.step_eq_some.mp hst)
      cases b with
      | false =>
          obtain rfl := Except.ok.inj (Option.some.inj hst)
          exact (withReply_false p _).symm ▸ h.of_eq rfl rfl rfl
      | true =>
          obtain ⟨user, name, huser, hname, rfl⟩ :=
            App.userReply_some_eq_ok.mp (Option.some.inj hst)
          refine h.update hs hb hmem rfl ?_ ?_
          · rw [repairedCell_user hown huser hname, ← h.cells c r hb, hc]
          · rw [repairedPost_user hown huser hname, ← h.shown c r hb, hr]
  | interested q =>
      have hown : q ∈ App.interestedFor (s.objects r) c := by
        simpa [requestsFor] using hmem
      have hc : q.cell = c := cell_of_mem_requestsFor hmem
      cases b with
      | false =>
          obtain rfl := Option.some.inj hrun
          exact (withReply_false p _).symm ▸ h
      | true =>
          obtain ⟨u, hst, hrun⟩ := Machine.run_cons_eq_some.mp hrun
          obtain rfl := Option.some.inj hrun
          obtain ⟨-, hst⟩ := Option.ite_none_right_eq_some.mp (App.step_eq_some.mp hst)
          obtain ⟨users, husers, rfl⟩ := App.interestedReply_eq_ok.mp (Option.some.inj hst)
          refine h.update hs hb hmem rfl ?_ ?_
          · rw [repairedCell_interested hown husers, ← h.cells c r hb, hc]
          · rw [repairedPost_interested, ← h.shown c r hb, Function.update_eq_self]

/-- **All completions**: those of a list of requests add them to those that have ended. -/
theorem Repaired.run (hs : Reloaded storage db s) (h : Repaired storage db p s t)
    {order : List Request} (horder : ∀ q ∈ order, s.OnScreen q) {succeeds : Request → Bool}
    (hrun : App.machine.run t (completions storage db succeeds order) =
      some t') :
    Repaired storage db (fun q => p q || (decide (q ∈ order) && succeeds q)) s t' := by
  induction order generalizing p t with
  | nil =>
      obtain rfl := Option.some.inj hrun
      simpa using h
  | cons q order ih =>
      rw [completions, List.flatMap_cons] at hrun
      obtain ⟨u, hu, hrun⟩ := Machine.run_append_eq_some.mp hrun
      have hfirst := h.completion hs (horder q List.mem_cons_self) hu
      have hrest := ih hfirst (fun q' hq' => horder q' (List.mem_cons_of_mem q hq')) hrun
      refine hrest.congr fun q' _ => ?_
      by_cases hqq : q' = q
      · subst hqq
        cases succeeds q' <;> simp [withReply]
      · simp [withReply, hqq]

/-! ### Completions that run to their ends -/

/-- Whoever is decoded has a username. -/
theorem username_of_userOfSnapshot {id : Uid} {node : Node} {user : UserModel}
    (h : userOfSnapshot id node = .ok user) : ∃ name, user.username = some name := by
  obtain ⟨username, -, h⟩ := bind_eq_ok.mp h
  obtain ⟨name, -, h⟩ := bind_eq_ok.mp h
  obtain ⟨email, -, h⟩ := bind_eq_ok.mp h
  exact Except.ok.inj h ▸ ⟨username, rfl⟩

/-- The completion of a request that is there runs to its end exactly when what it is
handed can be read. -/
theorem exists_completion (storage : StoragePath → Option Data) (db : Node) {q : Request}
    (hq : q ∈ t.requests) (b : Bool) :
    (∃ t', App.machine.run t (q.completion storage db b) = some t') ↔
      (b = true → q.Readable db) := by
  cases q with
  | picture q =>
      refine iff_of_true ⟨t.pictureReply q (if b then getData storage q.reference else none), ?_⟩
        fun _ => trivial
      rw [Request.completion, Machine.run_singleton]
      exact App.step_eq_some.mpr (if_pos (App.picture_mem_requests.mp hq))
  | user q =>
      have hmem := App.user_mem_requests.mp hq
      rw [Request.completion, Machine.run_singleton]
      cases b with
      | false =>
          refine iff_of_true ⟨{ t with userRequests := t.userRequests.erase q }, ?_⟩ nofun
          exact App.step_eq_some.mpr (if_pos hmem)
      | true =>
          constructor
          · rintro ⟨t', hst⟩ -
            obtain ⟨-, hst⟩ := Option.ite_none_right_eq_some.mp (App.step_eq_some.mp hst)
            obtain ⟨user, name, huser, -⟩ := App.userReply_some_eq_ok.mp (Option.some.inj hst)
            exact Option.isSome_iff_exists.mpr ⟨user, toOption_eq_some.mpr huser⟩
          · intro h
            obtain ⟨user, huser⟩ := Option.isSome_iff_exists.mp (h rfl)
            have huser := toOption_eq_some.mp huser
            obtain ⟨name, hname⟩ := username_of_userOfSnapshot huser
            have hreply := (App.userReply_some_eq_ok (s := t) (q := q)).mpr
              ⟨user, name, huser, hname, rfl⟩
            exact ⟨_, App.step_eq_some.mpr ((if_pos hmem).trans (congrArg some hreply))⟩
  | interested q =>
      have hmem := App.interested_mem_requests.mp hq
      cases b with
      | false => exact iff_of_true ⟨t, rfl⟩ nofun
      | true =>
          rw [Request.completion, if_pos rfl, Machine.run_singleton]
          constructor
          · rintro ⟨t', hst⟩ -
            obtain ⟨-, hst⟩ := Option.ite_none_right_eq_some.mp (App.step_eq_some.mp hst)
            obtain ⟨users, husers, -⟩ := App.interestedReply_eq_ok.mp (Option.some.inj hst)
            exact Option.isSome_iff_exists.mpr ⟨users, toOption_eq_some.mpr husers⟩
          · intro h
            obtain ⟨users, husers⟩ := Option.isSome_iff_exists.mp (h rfl)
            have hreply := (App.interestedReply_eq_ok (s := t) (q := q)).mpr
              ⟨users, toOption_eq_some.mp husers, rfl⟩
            exact ⟨_, App.step_eq_some.mpr ((if_pos hmem).trans (congrArg some hreply))⟩

/-- A completion ends its own request only. -/
theorem requests_completion {q q' : Request} {b : Bool}
    (hrun : App.machine.run t (q.completion storage db b) = some t') (hne : q' ≠ q)
    (hq' : q' ∈ t.requests) : q' ∈ t'.requests := by
  cases q with
  | picture q =>
      rw [Request.completion, Machine.run_singleton] at hrun
      obtain ⟨-, hst⟩ := Option.ite_none_right_eq_some.mp (App.step_eq_some.mp hrun)
      obtain rfl := Except.ok.inj (Option.some.inj hst)
      have hrequests : ∀ data : Option Data, (t.pictureReply q data).requests =
          ({ t with pictureRequests := t.pictureRequests.erase q } : App).requests := fun data => by
        cases data <;> rfl
      rw [hrequests]
      cases q' with
      | picture q' =>
          have hqq : q' ≠ q := fun h => hne (congrArg Request.picture h)
          rw [App.picture_mem_requests] at hq' ⊢
          exact (List.mem_erase_of_ne hqq).mpr hq'
      | user q' => simpa using hq'
      | interested q' => simpa using hq'
  | user q =>
      rw [Request.completion, Machine.run_singleton] at hrun
      obtain ⟨-, hst⟩ := Option.ite_none_right_eq_some.mp (App.step_eq_some.mp hrun)
      have hrequests : t'.requests =
          ({ t with userRequests := t.userRequests.erase q } : App).requests := by
        cases b with
        | false => exact (Except.ok.inj (Option.some.inj hst)) ▸ rfl
        | true =>
            obtain ⟨user, name, -, -, rfl⟩ := App.userReply_some_eq_ok.mp (Option.some.inj hst)
            rfl
      rw [hrequests]
      cases q' with
      | picture q' => simpa using hq'
      | user q' =>
          have hqq : q' ≠ q := fun h => hne (congrArg Request.user h)
          rw [App.user_mem_requests] at hq' ⊢
          exact (List.mem_erase_of_ne hqq).mpr hq'
      | interested q' => simpa using hq'
  | interested q =>
      cases b with
      | false => exact Option.some.inj hrun ▸ hq'
      | true =>
          rw [Request.completion, if_pos rfl, Machine.run_singleton] at hrun
          obtain ⟨-, hst⟩ := Option.ite_none_right_eq_some.mp (App.step_eq_some.mp hrun)
          obtain ⟨users, -, rfl⟩ := App.interestedReply_eq_ok.mp (Option.some.inj hst)
          cases q' with
          | picture q' => simpa using hq'
          | user q' => simpa using hq'
          | interested q' =>
              have hqq : q' ≠ q := fun h => hne (congrArg Request.interested h)
              rw [App.interested_mem_requests] at hq' ⊢
              exact (List.mem_erase_of_ne hqq).mpr hq'

/-- The completions of requests that are there all run to their ends exactly when each
that succeeds is handed what can be read. -/
theorem exists_completions {succeeds : Request → Bool} {order : List Request}
    (hnodup : order.Nodup) (hpending : ∀ q ∈ order, q ∈ t.requests) :
    (∃ t', App.machine.run t (completions storage db succeeds order) =
      some t') ↔ ∀ q ∈ order, succeeds q = true → q.Readable db := by
  induction order generalizing t with
  | nil => exact iff_of_true ⟨t, rfl⟩ nofun
  | cons q order ih =>
      obtain ⟨hq, hnodup⟩ := List.nodup_cons.mp hnodup
      have hfirst := exists_completion storage db (hpending q List.mem_cons_self) (succeeds q)
      have hrest : ∀ {u}, App.machine.run t (q.completion storage db (succeeds q)) = some u →
          ∀ q' ∈ order, q' ∈ u.requests := fun hu q' hq' =>
        requests_completion hu (fun h => hq (h ▸ hq')) (hpending q' (List.mem_cons_of_mem q hq'))
      rw [List.forall_mem_cons, completions, List.flatMap_cons]
      constructor
      · rintro ⟨t', hrun⟩
        obtain ⟨u, hu, hrun⟩ := Machine.run_append_eq_some.mp hrun
        exact ⟨hfirst.mp ⟨u, hu⟩, (ih hnodup (hrest hu)).mp ⟨t', hrun⟩⟩
      · rintro ⟨hread, hreads⟩
        obtain ⟨u, hu⟩ := hfirst.mpr hread
        obtain ⟨t', hrun⟩ := (ih hnodup (hrest hu)).mpr hreads
        exact ⟨t', Machine.run_append_eq_some.mpr ⟨u, hu, hrun⟩⟩

/-! ### The reload -/

/-- What a reload of the rows leaves when its requests have ended: each row's cell and
object have their own contents, and the other objects are as they were. -/
structure Settled (storage : StoragePath → Option Data) (db : Node) (succeeds : Request → Bool)
    (s : App) (rows : List (ℕ × CellRef)) (t : App) : Prop where
  shown : ∀ v ∈ rows, ∃ r, s.feed.posts[v.1]? = some r ∧ t.bound v.2 = some r ∧
    t.cells v.2 = repairedCell storage db succeeds (s.objects r) r v.2 ∧
    t.objects r = repairedPost storage db succeeds (s.objects r) r v.2
  others : ∀ r, (∀ v ∈ rows, s.feed.posts[v.1]? ≠ some r) → t.objects r = s.objects r

/-- There is one such outcome. -/
theorem Settled.unique {succeeds : Request → Bool} {rows : List (ℕ × CellRef)}
    (h : Settled storage db succeeds s rows t) (h' : Settled storage db succeeds s rows t') :
    t'.objects = t.objects ∧ ∀ v ∈ rows, t'.cells v.2 = t.cells v.2 := by
  constructor
  · funext r
    by_cases hr : ∃ v ∈ rows, s.feed.posts[v.1]? = some r
    · obtain ⟨v, hv, hr⟩ := hr
      obtain ⟨r₁, hr₁, -, -, hobj⟩ := h.shown v hv
      obtain ⟨r₂, hr₂, -, -, hobj'⟩ := h'.shown v hv
      obtain rfl := Option.some.inj (hr.symm.trans hr₁)
      obtain rfl := Option.some.inj (hr.symm.trans hr₂)
      exact hobj'.trans hobj.symm
    · have hr : ∀ v ∈ rows, s.feed.posts[v.1]? ≠ some r := fun v hv hvr => hr ⟨v, hv, hvr⟩
      exact (h'.others r hr).trans (h.others r hr).symm
  · intro v hv
    obtain ⟨r₁, hr₁, -, hcell, -⟩ := h.shown v hv
    obtain ⟨r₂, hr₂, -, hcell', -⟩ := h'.shown v hv
    obtain rfl := Option.some.inj (hr₁.symm.trans hr₂)
    exact hcell'.trans hcell.symm

/-- Rows that have been rendered are rows of posts. -/
theorem exists_post_of_rendered {rows : List (ℕ × CellRef)}
    (hrun : App.machine.run s (rows.map fun v => .cellForRowAt v.1 v.2) = some t) :
    ∀ v ∈ rows, ∃ r, s.feed.posts[v.1]? = some r := by
  induction rows generalizing s with
  | nil => nofun
  | cons v rows ih =>
      obtain ⟨u, hst, hrun⟩ := Machine.run_cons_eq_some.mp hrun
      obtain ⟨-, hst⟩ := Option.ite_none_right_eq_some.mp (App.step_eq_some.mp hst)
      obtain ⟨r, hr, -, rfl⟩ := App.cellForRowAt_eq_ok.mp (Option.some.inj hst)
      have hrest := ih hrun
      exact List.forall_mem_cons.mpr ⟨⟨r, hr⟩, hrest⟩

theorem cachesOwn_reloadData {E : Sources} (h : E.CachesOwn s) : E.CachesOwn s.reloadData := by
  have hheld : ∀ r, s.reloadData.Holds r → s.Holds r :=
    App.Holds.imp (fun _ h => .ofPosts h) (fun _ _ h => by cases h) (fun _ h => .ofPicture h)
      (fun _ h => .ofUser h) (fun _ h => .ofDetail h)
  exact h.of_sameCells (fun r hr => h.allocated r (hheld r hr))
    ⟨rfl, nofun, rfl, rfl, rfl, fun _ => Or.inl rfl⟩

/-- Distinct rows stand for distinct posts. -/
theorem Laid.reloaded {rows : List (ℕ × CellRef)} (h : Laid s rows t)
    (hrows : (rows.map Prod.fst).Nodup) (hposts : s.feed.posts.Nodup)
    (hown : (Sources.unchanging storage db).CachesOwn t) :
    Reloaded storage db t where
  own := hown
  single c c' r hb hb' := by
    obtain ⟨row, hmem, hr⟩ := (h.bound c r).mp hb
    obtain ⟨row', hmem', hr'⟩ := (h.bound c' r).mp hb'
    have hrow : row = row' := by
      obtain ⟨hlt, hr⟩ := List.getElem?_eq_some_iff.mp hr
      obtain ⟨hlt', hr'⟩ := List.getElem?_eq_some_iff.mp hr'
      exact hposts.getElem_inj_iff.mp (hr.trans hr'.symm)
    exact congrArg Prod.snd (List.inj_on_of_nodup_map hrows hmem hmem' hrow)
  cells c r hb := h.objects ▸ h.cells c r hb

/-- **A reload repairs the screen.** Let the table reload and each row on the screen be
rendered in a cell object of its own. If nothing happens until the requests that this starts
have ended, then whichever of them succeed and in whatever order they end, the completions
all run to their ends exactly when those that succeed are handed what can be read, and they
leave the cells and the `Post` objects with their own contents. -/
theorem reload_repairs (storage : StoragePath → Option Data) (db : Node) (u : Option Uid)
    (view : Node) {as : List Action} {s : App}
    (has : ∀ a ∈ as, (Sources.unchanging storage db).Answers a)
    (hrun : App.machine.run (App.launch u view) as = some s)
    {rows : List (ℕ × CellRef)} (hrows : (rows.map Prod.fst).Nodup)
    (hcells : (rows.map Prod.snd).Nodup) {s₁ : App}
    (hreload : App.machine.run s.reloadData (rows.map fun v => .cellForRowAt v.1 v.2) = some s₁)
    (succeeds : Request → Bool) {order : List Request} (horder : order.Perm (s.startedBy rows)) :
    ((∃ t, App.machine.run s₁ (completions storage db succeeds order) = some t) ↔
      ∀ q ∈ s.startedBy rows, succeeds q = true → q.Readable db) ∧
    ∀ t, App.machine.run s₁ (completions storage db succeeds order) = some t →
      Settled storage db succeeds s rows t ∧
      ∀ (order' : List Request) (t' : App), order'.Perm (s.startedBy rows) →
        App.machine.run s₁ (completions storage db succeeds order') = some t' →
        t'.objects = t.objects ∧ ∀ v ∈ rows, t'.cells v.2 = t.cells v.2 := by
  have hlaid : Laid s rows s₁ := laid_run hcells hreload
  have hown : (Sources.unchanging storage db).CachesOwn s₁ := by
    have hcaches := (Sources.cachesOwn_launch u view).run has hrun
    refine (cachesOwn_reloadData hcaches).run (fun a ha => ?_) hreload
    obtain ⟨v, -, rfl⟩ := List.mem_map.mp ha
    trivial
  have hs : Reloaded storage db s₁ := hlaid.reloaded hrows (App.posts_nodup hrun).2 hown
  have hsettled : ∀ {order t}, order.Perm (s.startedBy rows) →
      App.machine.run s₁ (completions storage db succeeds order) = some t →
      Settled storage db succeeds s rows t := by
    intro order t horder ht
    have hscreen : ∀ q ∈ order, s₁.OnScreen q := fun q hq =>
      hlaid.onScreen_iff.mpr (horder.mem_iff.mp hq)
    have hrepaired : Repaired storage db succeeds s₁ t :=
      (hs.repaired.run hs hscreen ht).congr fun q hq => by
        simp [horder.mem_iff.mpr (hlaid.onScreen_iff.mp hq)]
    constructor
    · intro v hv
      obtain ⟨r, hr⟩ := exists_post_of_rendered hreload v hv
      have hb := (hlaid.bound v.2 r).mpr ⟨v.1, hv, hr⟩
      refine ⟨r, hr, hrepaired.bound ▸ hb, ?_, ?_⟩
      · exact hlaid.objects ▸ hrepaired.cells v.2 r hb
      · exact hlaid.objects ▸ hrepaired.shown v.2 r hb
    · intro r hr
      refine (hrepaired.others r fun c hb => ?_).trans (congrFun hlaid.objects r)
      obtain ⟨row, hmem, hrow⟩ := (hlaid.bound c r).mp hb
      exact hr _ hmem hrow
  refine ⟨?_, fun t ht => ⟨hsettled horder ht, fun order' t' horder' ht' =>
    (hsettled horder ht).unique (hsettled horder' ht')⟩⟩
  have hpending : ∀ q ∈ order, q ∈ s₁.requests := fun q hq =>
    hlaid.requests.mem_iff.mpr (List.mem_append_right _ (horder.mem_iff.mp hq))
  rw [exists_completions (horder.nodup_iff.mpr (startedBy_nodup s hcells)) hpending]
  exact forall_congr' fun q => imp_congr_left horder.mem_iff

end Reload

/-! ### A screen with two posts -/

attribute [local instance] Platform.reference

/-- The picture of Ann's party. -/
def partyPicture (ref : StoragePath) : Option Data := if ref = ["P"] then some [1] else none

/-- All requests succeed but the one for Ann's name. -/
def notAnnsName (q : Request) : Bool := q ≠ .user ⟨3, 0, "ann"⟩

theorem reload_repairs_twoPosts : ∃ s s₁ t,
    App.machine.run (App.launch (some "ann") Sources.twoPosts)
      [.viewWillAppear, .deliver 0, .deliver 0] = some s ∧
    App.machine.run s.reloadData [.cellForRowAt 0 7, .cellForRowAt 1 3] = some s₁ ∧
    App.machine.run s₁ (completions partyPicture Sources.twoPosts notAnnsName
      (s.startedBy [(0, 7), (1, 3)]).reverse) = some t ∧
    Settled partyPicture Sources.twoPosts notAnnsName s [(0, 7), (1, 3)] t ∧
    (t.cells 7).posterNameLabel = some "Created by: bob1" ∧
    (t.cells 3).posterNameLabel = none ∧ (t.cells 3).mainImageView = some ⟨[1]⟩ := by
  have hrun : ((App.machine.run (App.launch (some "ann") Sources.twoPosts)
      [.viewWillAppear, .deliver 0, .deliver 0]).bind fun s =>
      (App.machine.run s.reloadData [.cellForRowAt 0 7, .cellForRowAt 1 3]).bind fun s₁ =>
      (App.machine.run s₁ (completions partyPicture Sources.twoPosts notAnnsName
        (s.startedBy [(0, 7), (1, 3)]).reverse)).map fun t =>
      ((t.cells 7).posterNameLabel, (t.cells 3).posterNameLabel, (t.cells 3).mainImageView)) =
      some (some "Created by: bob1", none, some ⟨[1]⟩) := by decide
  obtain ⟨s, hs, hrun⟩ := Option.bind_eq_some_iff.mp hrun
  obtain ⟨s₁, hs₁, hrun⟩ := Option.bind_eq_some_iff.mp hrun
  obtain ⟨t, ht, hfacts⟩ := Option.map_eq_some_iff.mp hrun
  simp only [Prod.mk.injEq] at hfacts
  have has : ∀ a ∈ [Action.viewWillAppear, .deliver 0, .deliver 0],
      (Sources.unchanging partyPicture Sources.twoPosts).Answers a := by
    simp [Sources.Answers]
  have hrows : (List.map Prod.fst [(0, 7), (1, 3)]).Nodup := by decide
  have hcells : (List.map Prod.snd [(0, 7), (1, 3)]).Nodup := by decide
  have hrepairs := (reload_repairs partyPicture Sources.twoPosts (some "ann") Sources.twoPosts
    has hs hrows hcells hs₁ notAnnsName (List.reverse_perm _)).2 t ht
  exact ⟨s, s₁, t, hs, hs₁, ht, hrepairs.1, hfacts⟩

end MDBSocials
