import MDBSocials.Cells
import MDBSocials.Crashes
import MDBSocials.Feeds

/-!
# What the Rows of All Devices Show

A row shows the name of its event as the post has it, and how many people the device's view
lists as interested when the reply comes. In the end all devices have the same view, and what
they show differs in the order of the rows only.

## Main results

* `TablesInv.exists_run_rows`: the rows of a table can be rendered and answered one by one.
* `rowsShown_perm`: on a device that is up to date they then show what the server has.
* `tables_agree`: every device on which somebody is signed in comes to show one row for each
  post of the server's log, with its name and the number of interests in it there.
-/

namespace MDBSocials

open scoped List

/-! ### One row -/

/-- What the cell of a row shows. -/
structure RowShown where
  id : Option Key
  eventName : Option String
  interested : Option String
deriving DecidableEq

namespace App

/-- What the cell of a row shows, where each row has the cell of its number. -/
def rowShown (s : App) (row : ℕ) : RowShown where
  id := (s.bound row).bind fun r => (s.objects r).id
  eventName := (s.cells row).eventNameLabel
  interested := (s.cells row).interestedLabel

def rowsShown (s : App) : List RowShown := (List.range s.feed.posts.length).map s.rowShown

/-- The table has the rows of the feed, or the feed is empty. -/
def TableCurrent (s : App) : Prop := s.feed.table = s.feed.posts ∨ s.feed.posts = []

/-- The feed, its posts and what it is told of are the same. -/
structure SameRows (s t : App) : Prop where
  currentUser : t.currentUser = s.currentUser
  view : t.view = s.view
  observers : t.observers = s.observers
  objects : t.objects = s.objects
  feed : t.feed = s.feed

theorem SameRows.trans {s t u : App} (h : SameRows s t) (h' : SameRows t u) : SameRows s u where
  currentUser := h'.currentUser.trans h.currentUser
  view := h'.view.trans h.view
  observers := h'.observers.trans h.observers
  objects := h'.objects.trans h.objects
  feed := h'.feed.trans h.feed

section Steps

variable [Platform]

/-- The cell of a row stands for its post, and shows its name and how many people the view
lists as interested in it. -/
def ShowsRow (s : App) (row : ℕ) : Prop :=
  ∃ r postId users, s.feed.posts[row]? = some r ∧ s.bound row = some r ∧
    (s.objects r).id = some postId ∧ (s.cells row).eventNameLabel = (s.objects r).eventName ∧
    interestedUsers (s.view.sub ["Posts", postId, "Interested"]) = .ok users ∧
    (s.cells row).interestedLabel = some (interestedText users.length)

/-- A row is shown as before while its cell is left alone. -/
theorem ShowsRow.of_same {s t : App} {row : ℕ} (h : s.ShowsRow row) (hsame : SameRows s t)
    (hbound : t.bound row = s.bound row) (hcell : t.cells row = s.cells row) :
    t.ShowsRow row := by
  rwa [ShowsRow, hsame.feed, hsame.objects, hsame.view, hbound, hcell]

theorem TableCurrent.step {s t : App} {a : Action} (hs : s.TableCurrent)
    (h : s.step a = some t) : t.TableCurrent := by
  rcases step_table h with ⟨-, htable | ⟨htable, hposts⟩⟩ | ⟨-, -, hposts⟩
  · exact Or.inl htable
  · rwa [TableCurrent, htable, hposts]
  · exact Or.inr hposts

/-- **One row** is rendered, and the reply to its `getInterestedUsers` comes. -/
theorem exists_rendered_answered {s : App} {row : ℕ} {r : PostRef} {postId : Key}
    {users : List Uid} (hs : s.TableCurrent) (hr : s.feed.posts[row]? = some r)
    (hrender : ∃ t, s.cellForRowAt row row = .ok t) (hid : (s.objects r).id = some postId)
    (husers : interestedUsers (s.view.sub ["Posts", postId, "Interested"]) = .ok users) :
    ∃ t, machine.run s [.cellForRowAt row row, .interestedReply ⟨row, postId⟩
        (s.view.sub ["Posts", postId, "Interested"])] = some t ∧
      SameRows s t ∧ t.ShowsRow row ∧
      ∀ c ≠ row, t.bound c = s.bound c ∧ t.cells c = s.cells c := by
  obtain ⟨hlt, -⟩ := List.getElem?_eq_some_iff.mp hr
  have htable : row < s.feed.table.length := by
    rcases hs with htable | hnil
    · exact htable ▸ hlt
    · exact absurd hlt (by simp [hnil])
  obtain ⟨s₁, hs₁⟩ := hrender
  obtain ⟨r', hr', -, rfl⟩ := cellForRowAt_eq_ok.mp hs₁
  obtain rfl := Option.some.inj (hr.symm.trans hr')
  have hrendered : s.step (.cellForRowAt row row) = some (s.rendered r row) :=
    step_eq_some.mpr (by rw [perform, if_pos htable, hs₁])
  have hmem : ⟨row, postId⟩ ∈ (s.rendered r row).interestedRequests := by
    simp [rendered, interestedFor, hid]
  have hreply := (interestedReply_eq_ok (s := s.rendered r row) (q := ⟨row, postId⟩)).mpr
    ⟨users, husers, rfl⟩
  have hreplied : (s.rendered r row).step (.interestedReply ⟨row, postId⟩
      (s.view.sub ["Posts", postId, "Interested"])) = some _ :=
    step_eq_some.mpr (by rw [perform, if_pos hmem, hreply])
  refine ⟨_, Machine.run_cons_eq_some.mpr ⟨_, hrendered,
    Machine.run_cons_eq_some.mpr ⟨_, hreplied, rfl⟩⟩, ⟨rfl, rfl, rfl, rfl, rfl⟩, ?_, ?_⟩
  · refine ⟨r, postId, users, hr, ?_, hid, ?_, husers, ?_⟩
    · simp [rendered]
    · simp [rendered, Post.cell]
    · simp [rendered]
  · intro c hc
    simp [rendered, hc]

end Steps

end App

namespace World

variable [Platform] {ι : Type} [DecidableEq ι] {w w' : World ι} {c : ι} {a : ClientAction}

/-! ### All rows of a device -/

/-- Besides what tells the feeds, tables ask for rows and the replies to their
`getInterestedUsers` come. -/
def Shows : ClientAction → Prop
  | .feed (.cellForRowAt ..) | .feed (.interestedReply _) => True
  | a => Tells a

theorem Tells.shows (ha : Tells a) : Shows a := by
  cases a with
  | arrive | sync => trivial
  | feed b =>
      cases b with
      | deliver i => trivial
      | _ => exact ha.elim
  | _ => exact ha.elim

omit [DecidableEq ι] in
theorem Shows.safe (ha : Shows a) (c : ι) : Accepted a ∧ FeedSafe w (c, a) := by
  cases a with
  | arrive | sync => exact ⟨trivial, trivial⟩
  | feed b =>
      cases b with
      | deliver i | cellForRowAt row cell | interestedReply q => exact ⟨trivial, trivial⟩
      | _ => exact ha.elim
  | _ => exact ha.elim

/-- Every feed is as in `FeedsInv`, and the table of each is current. -/
structure TablesInv (w : World ι) : Prop extends FeedsInv w where
  created : CreatedInv w
  tables : ∀ c, (w.app c).TableCurrent

theorem tablesInv_initial : TablesInv (initial : World ι) where
  toFeedsInv := feedsInv_initial
  created := createdInv_initial
  tables _ := Or.inl rfl

theorem TablesInv.step (h : TablesInv w) (ha : Accepted a) (hg : FeedSafe w (c, a))
    (hst : Step w c a w') : TablesInv w' := by
  refine ⟨h.toFeedsInv.step ha hg hst, h.created.step hst, fun d => ?_⟩
  by_cases hd : d = c
  · subst hd
    rcases hst.app with ⟨-, u, hlaunch⟩ | ⟨⟨as, hrun, -⟩, -⟩
    · exact hlaunch ▸ Or.inl rfl
    · exact Machine.run_invariant (fun _ _ _ hs h => hs.step h) (h.tables d) hrun
  · rw [World.app, hst.clients_of_ne hd]
    exact h.tables d

theorem tablesInv_of_run {as : List (ι × ClientAction)}
    (hrun : accepted.run initial as = some w)
    (hg : accepted.Guarded FeedSafe (initial : World ι) as) : TablesInv w :=
  hg.run_invariant (fun _ _ _ hw ha hst => by
    obtain ⟨hacc, hst⟩ := Machine.restrict_step.mp hst
    exact hw.step hacc ha (step_cases hst)) tablesInv_initial hrun

theorem TablesInv.run_shows (h : TablesInv w) {bs : List (ι × ClientAction)}
    (hbs : ∀ a ∈ bs, Shows a.2) (hrun : machine.run w bs = some w') :
    accepted.run w bs = some w' ∧ TablesInv w' :=
  run_safe TablesInv.step h (fun a ha _ => (hbs a ha).safe a.1) hrun

/-- An object of the feed is the post of one call of `newPost`, in the device's view. -/
theorem TablesInv.record (h : TablesInv w) {r : PostRef} (hr : r ∈ (w.app c).feed.posts) :
    r < (w.app c).nextRef ∧ ∃ key post, .newPost key post ∈ w.db.viewSeq c ∧
      ((w.app c).objects r).record = post.record key := by
  have hfaith := h.schema.apps c
  have hlt := hfaith.allocated r (.ofPosts hr)
  exact ⟨hlt, hfaith.objects r hlt⟩

/-- One row of a table can be rendered and answered. -/
theorem TablesInv.exists_run_row (h : TablesInv w) {row : ℕ}
    (hrow : row < (w.app c).feed.posts.length) : ∃ (bs : List (ι × ClientAction)) (t : App),
      machine.run w bs = some (w.setApp c t) ∧ (∀ a ∈ bs, Shows a.2) ∧
      App.SameRows (w.app c) t ∧ t.ShowsRow row ∧
      ∀ d ≠ row, t.bound d = (w.app c).bound d ∧ t.cells d = (w.app c).cells d := by
  obtain ⟨hlt, key, post, -, hrec⟩ := h.record (List.getElem_mem hrow)
  have hid := congrArg Post.id hrec
  obtain ⟨t, hrun, hshown⟩ := App.exists_rendered_answered (h.tables c)
    (List.getElem?_eq_getElem hrow) (rendered_of_lt h.schema h.created hrow row) hid
    (h.coherent c ▸ interestedUsers_of_object h.schema hlt hid)
  refine ⟨_, t, run_feed [.cellForRowAt row row, .interestedReply ⟨row, key⟩] ?_ hrun,
    by simp [Shows], hshown⟩
  simp [input, h.coherent c]

/-- **The rows of a table** can be rendered and answered one by one. -/
theorem TablesInv.exists_run_rows (h : TablesInv w) (c : ι) {n : ℕ}
    (hn : n ≤ (w.app c).feed.posts.length) : ∃ (bs : List (ι × ClientAction)) (t : App),
      machine.run w bs = some (w.setApp c t) ∧ (∀ a ∈ bs, Shows a.2) ∧
      App.SameRows (w.app c) t ∧ ∀ row < n, t.ShowsRow row := by
  induction n with
  | zero =>
      refine ⟨[], w.app c, ?_, by simp, ⟨rfl, rfl, rfl, rfl, rfl⟩, by simp⟩
      simp [setApp, World.modify, World.app, Machine.run]
  | succ n ih =>
      obtain ⟨bs, t, hrun, hbs, hsame, hshows⟩ := ih (Nat.le_of_succ_le hn)
      -- the device as it is after the rows before
      obtain ⟨-, hinv⟩ := h.run_shows hbs hrun
      have hlt : n < ((w.setApp c t).app c).feed.posts.length := by
        rw [app_setApp, hsame.feed]
        exact hn
      obtain ⟨bs', t', hrun', hbs', hsame', hrow, hrest⟩ := hinv.exists_run_row hlt
      rw [setApp_setApp] at hrun'
      rw [app_setApp] at hsame' hrest
      refine ⟨bs ++ bs', t', Machine.run_append_eq_some.mpr ⟨_, hrun, hrun'⟩, fun a ha => ?_,
        hsame.trans hsame', fun row hlt => ?_⟩
      · exact (List.mem_append.mp ha).elim (hbs a) (hbs' a)
      · rcases Nat.lt_succ_iff_lt_or_eq.mp hlt with hlt | rfl
        · obtain ⟨hbound, hcell⟩ := hrest row hlt.ne
          exact (hshows row hlt).of_same hsame' hbound hcell
        · exact hrow

/-! ### All devices -/

/-- The row that a post deserves. -/
def serverRow (w : World ι) : Write → Option RowShown
  | .newPost key post => some {
      id := some key
      eventName := some post.name
      interested := some (App.interestedText (interestsIn key w.db.serverSeq).length) }
  | _ => none

/-- One row for each post that the server has. -/
def serverRows (w : World ι) : List RowShown := w.db.serverSeq.filterMap w.serverRow

/-- **A row** that is shown by a device that is up to date. -/
theorem TablesInv.serverRow_of_showsRow (h : TablesInv w) (hkeys : KeysInv w)
    (hview : w.db.viewSeq c = w.db.serverSeq) {row : ℕ} (hrow : (w.app c).ShowsRow row) :
    ∃ key post, .newPost key post ∈ w.db.serverSeq ∧
      ((w.app c).feed.posts.map fun r => ((w.app c).objects r).id)[row]? = some (some key) ∧
      w.serverRow (.newPost key post) = some ((w.app c).rowShown row) := by
  obtain ⟨r, postId, users, hr, hbound, hid, hname, husers, hlabel⟩ := hrow
  obtain ⟨hlt, key, post, hpost, hrec⟩ := h.record (List.mem_of_getElem? hr)
  obtain rfl := Option.some.inj (hid.symm.trans (congrArg Post.id hrec))
  have hevent : ((w.app c).objects r).eventName = some post.name := congrArg Post.eventName hrec
  have hlist := interestedUsers_of_object h.schema hlt hid
  rw [← h.coherent c, husers] at hlist
  obtain rfl := Except.ok.inj hlist
  have hcount := (interestEntries_perm h.schema.causal.server
    hkeys.different.nodup_serverSeq postId).length_eq
  refine ⟨postId, post, hview ▸ hpost, by simp [hr, hid], ?_⟩
  simp only [serverRow, App.rowShown, hbound, hname, hevent, hlabel, Option.bind_some, hid]
  rw [← hcount, List.length_map, h.coherent c, localView, hview]

/-- **A device that is up to date** shows the rows that the posts deserve, each once. -/
theorem TablesInv.rowsShown_perm (h : TablesInv w) (hkeys : KeysInv w)
    (hview : w.db.viewSeq c = w.db.serverSeq)
    (hposts : (w.app c).postIds ~ (w.db.serverSeq.filterMap Write.newPostKey).map some)
    (hrows : ∀ row < (w.app c).feed.posts.length, (w.app c).ShowsRow row) :
    (w.app c).rowsShown ~ w.serverRows := by
  have hids : (w.app c).rowsShown.map RowShown.id = (w.app c).postIds := by
    refine List.ext_getElem? fun row => ?_
    by_cases hlt : row < (w.app c).feed.posts.length
    · obtain ⟨key, post, -, hid, hshown⟩ :=
        h.serverRow_of_showsRow hkeys hview (hrows row hlt)
      have hshown : ((w.app c).rowShown row).id = some key :=
        (congrArg RowShown.id (Option.some.inj hshown)).symm
      rw [App.postIds, hid, App.rowsShown]
      simp [hlt, hshown]
    · simp [App.rowsShown, App.postIds, hlt]
  have hnodup : (w.app c).rowsShown.Nodup :=
    List.Nodup.of_map RowShown.id (hids ▸ (List.nodup_append.mp (h.once c).nodup).1)
  have hsub : (w.app c).rowsShown ⊆ w.serverRows := by
    intro x hx
    obtain ⟨row, hrow, rfl⟩ := List.mem_map.mp hx
    obtain ⟨key, post, hpost, -, hshown⟩ :=
      h.serverRow_of_showsRow hkeys hview (hrows row (List.mem_range.mp hrow))
    exact List.mem_filterMap.mpr ⟨_, hpost, hshown⟩
  have hserver : w.serverRows.map RowShown.id =
      (w.db.serverSeq.filterMap Write.newPostKey).map some := by
    rw [serverRows, List.map_filterMap, List.map_filterMap]
    refine List.filterMap_congr fun x _ => ?_
    cases x <;> rfl
  refine (List.subperm_of_subset hnodup hsub).perm_of_length_le (le_of_eq ?_)
  -- both lists are as long as the list of posts
  calc w.serverRows.length = (w.serverRows.map RowShown.id).length := (List.length_map _).symm
    _ = (w.app c).postIds.length := by rw [hserver, hposts.length_eq]
    _ = (w.app c).rowsShown.length := by rw [← hids, List.length_map]

theorem TablesInv.exists_runsOn_shown (h : TablesInv w) (c : ι) : ∃ bs w',
    RunsOn Shows [c] w bs w' ∧ TablesInv w' ∧ (w'.app c).queuedIds = [] ∧
      App.SameSession (w.app c) (w'.app c) ∧
      ∀ row < (w'.app c).feed.posts.length, (w'.app c).ShowsRow row := by
  obtain ⟨is, s, htold, hempty, hsession⟩ := h.exists_told c
  have htells : ∀ a ∈ deliveries c is, Shows a.2 := fun a ha => (tells_deliveries a ha).shows
  obtain ⟨-, hinv⟩ := h.run_shows htells htold
  obtain ⟨bs, t, hrun, hbs, hsame, hshows⟩ := hinv.exists_run_rows c le_rfl
  rw [setApp_setApp] at hrun
  rw [app_setApp] at hsame hshows
  have hall := Machine.run_append_eq_some.mpr ⟨_, htold, hrun⟩
  have hactions : ∀ a ∈ deliveries c is ++ bs, Shows a.2 := fun a ha =>
    (List.mem_append.mp ha).elim (htells a) (hbs a)
  refine ⟨_, w.setApp c t, .setApp hall hactions, (h.run_shows hactions hall).2, ?_⟩
  rw [app_setApp]
  refine ⟨?_, hsession.trans ⟨hsame.currentUser, congrArg _ hsame.feed⟩, ?_⟩
  · rw [App.queuedIds, hsame.observers]
    exact hempty
  · rw [hsame.feed]
    exact hshows

/-- **Tables agree.** Wherever a run of finitely many devices stands, the network, the queues
and the tables alone can bring it about that the server has every write on its way, and that
the table of each device on which somebody is signed in and the feed counts as loaded has
one row for each call of `newPost` in the server's log, which shows the name given there and
the number of the calls of `updateInterested` for the post in the log. -/
theorem tables_agree [Fintype ι] {as : List (ι × ClientAction)}
    (hrun : accepted.run initial as = some w)
    (hg : accepted.Guarded FeedSafe (initial : World ι) as) :
    ∃ bs w', accepted.run w bs = some w' ∧ (∀ a ∈ bs, Shows a.2) ∧
      (∀ x, w.db.Issued x → x ∈ w'.db.serverSeq) ∧
      ∀ c, (w.app c).currentUser ≠ none → (w.app c).feed.postsLoaded = true →
        (w'.app c).rowsShown ~ w'.serverRows := by
  have hinv := tablesInv_of_run hrun hg
  obtain ⟨bs, w₁, hrun₁, hbs, hsettled, hissued⟩ := exists_delivered w
  have hbs₁ : ∀ a ∈ bs, Shows a.2 := fun a ha => (hbs a ha).tells.shows
  obtain ⟨hacc₁, hinv₁⟩ := hinv.run_shows hbs₁ hrun₁
  obtain ⟨bs', w', ⟨hrun', hbs', hdb, -⟩, hinv', hshown⟩ :=
    exists_runsOn (Q := fun s t => t.queuedIds = [] ∧ App.SameSession s t ∧
        ∀ row < t.feed.posts.length, t.ShowsRow row)
      (fun _ hw => hw.exists_runsOn_shown) hinv₁ (Finset.nodup_toList (Finset.univ : Finset ι))
  obtain ⟨hacc', -⟩ := hinv₁.run_shows hbs' hrun'
  have hall := Machine.run_append_eq_some.mpr ⟨w₁, hacc₁, hacc'⟩
  refine ⟨bs ++ bs', w', hall, fun a ha => ?_, fun x hx => ?_, fun c huser hloaded => ?_⟩
  · exact (List.mem_append.mp ha).elim (hbs₁ a) (hbs' a)
  · exact hdb ▸ hissued x hx
  · obtain ⟨hempty, hsame, hrows⟩ := hshown c (Finset.mem_toList.mpr (Finset.mem_univ c))
    have hsession := (sameSession_of_delivers hbs hrun₁ c).trans hsame
    have hkeys := (schema_keys_of_run (Machine.run_append_eq_some.mpr ⟨w, hrun, hall⟩)).2
    have hview := (hdb ▸ hsettled : w'.db.Settled).viewSeq c
    have hposts := hinv'.postIds_perm_server hkeys hview (hsession.currentUser ▸ huser)
      (hsession.postsLoaded ▸ hloaded) hempty
    exact hinv'.rowsShown_perm hkeys hview hposts hrows

end World

/-! ### The tables of two devices -/

namespace World

attribute [local instance] Platform.reference

theorem tables_agree_two : ∃ w w' : World (Fin 2), accepted.run initial annsDevices = some w ∧
    ∀ c, (w'.app c).rowsShown ~ w'.serverRows := by
  obtain ⟨w, hw, hfacts⟩ := run_annsDevices
  obtain ⟨-, w', -, -, -, hagree⟩ := tables_agree hw guarded_annsDevices
  exact ⟨w, w', hw, fun c => hagree c (by simp [(hfacts c).1]) (hfacts c).2⟩

end World

end MDBSocials
