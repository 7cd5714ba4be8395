import MDBSocials.Durability
import MDBSocials.FeedCopies

/-!
# The Feeds of All Devices

A feed is filled by the observer that its device attached last, from a view that the device
shares with the server and, in the end, with all other devices. Where both conditions on the
subscription of the feed are met, what a device shows and what is queued for it are together
the posts of its view, each once; and the queue can always be emptied.

## Main results

* `FeedsInv.step`: the two invariants of the subscription hold on every device.
* `feeds_exact`: a feed and its queue are the posts of the device's view, each once.
* `feeds_agree`: devices that have been told of everything come to show the same posts, those
  of the server's log.
-/

namespace MDBSocials

open scoped List

/-! ### One feed -/

namespace App

/-- The feed and what is queued for it are the posts of the view, each once. -/
def Exact (s : App) : Prop :=
  (s.postIds ++ s.queuedIds) ~ (s.view.sub ["Posts"]).childKeys.map some

/-- **Once and covered is exact.** -/
theorem exact_of_inv {s : App} (honce : OnceInv s) (hcover : CoverInv s)
    (huser : s.currentUser ≠ none) (hloaded : s.feed.postsLoaded = true) : s.Exact := by
  have hkeys : ((s.view.sub ["Posts"]).childKeys.map some).Nodup :=
    (PathTree.nodup_childKeys _).map (Option.some_injective _)
  refine (List.perm_ext_iff_of_nodup honce.nodup hkeys).mpr fun id => ⟨fun hid => ?_, fun hid => ?_⟩
  · obtain ⟨k, hk, rfl⟩ := honce.known id hid
    exact List.mem_map_of_mem (PathTree.mem_childKeys.mpr hk)
  · obtain ⟨k, hk, rfl⟩ := List.mem_map.mp hid
    rcases hcover.loaded hloaded with ⟨o, ho, hkeys⟩ | ⟨hnone, -⟩
    · rcases hkeys k (PathTree.mem_childKeys.mp hk) with hshown | hqueued
      · exact List.mem_append_left _ hshown
      · refine List.mem_append_right _ (List.mem_flatMap.mpr ⟨o, ho, ?_⟩)
        obtain ⟨snap, hsnap, rfl⟩ := List.mem_map.mp hqueued
        exact List.mem_map_of_mem hsnap
    · exact absurd hnone huser

/-- A view of more writes has the posts of before. -/
theorem grows_of_subset {s : App} {us vs : List Write} (hview : s.view = applyWrites .empty us)
    (hsub : us ⊆ vs) : s.Grows (.viewChanged (applyWrites .empty vs)) := by
  intro k hk
  rw [postKeys, hview] at hk
  obtain ⟨x, hx, hpost⟩ := mem_children_posts.mp hk
  exact mem_children_posts.mpr ⟨x, hsub hx, hpost⟩

/-! ### Emptying the queues -/

/-- The session is the same, and so is whether the feed counts as loaded. -/
structure SameSession (s t : App) : Prop where
  currentUser : t.currentUser = s.currentUser
  postsLoaded : t.feed.postsLoaded = s.feed.postsLoaded

theorem SameSession.trans {s t u : App} (h : SameSession s t) (h' : SameSession t u) :
    SameSession s u :=
  ⟨h'.currentUser.trans h.currentUser, h'.postsLoaded.trans h.postsLoaded⟩

section Deliveries

variable [Platform]

/-- **The queues can be emptied.** Where all that is queued for a feed can be decoded, it can
all be delivered, and the feed takes it in. -/
theorem exists_deliveries {I : App → Prop} (hinv : ∀ s, I s → FeedInv s)
    (hkept : ∀ s i t, I s → s.step (.deliver i) = some t → I t)
    (hdecoded : ∀ s o snap, I s → o ∈ s.observers → snap ∈ o.queue →
      ∃ post, fetchedPost snap = .ok post) {s : App} (h : I s) :
    ∃ (is : List ℕ) (t : App), machine.run s (is.map .deliver) = some t ∧ t.queuedIds = [] ∧
      t.postIds ~ s.postIds ++ s.queuedIds ∧ SameSession s t := by
  generalize hn : s.queuedIds.length = n
  induction n generalizing s with
  | zero =>
      have hempty : s.queuedIds = [] := List.length_eq_zero_iff.mp hn
      exact ⟨[], s, rfl, hempty, by rw [hempty, List.append_nil], rfl, rfl⟩
  | succ n ih =>
      obtain ⟨id, hid⟩ := List.exists_mem_of_length_eq_add_one hn
      obtain ⟨o, ho, hsnap⟩ := List.mem_flatMap.mp hid
      obtain ⟨i, hi⟩ := List.getElem?_of_mem ho
      obtain ⟨snap, queue, hnext⟩ : ∃ snap queue, o.queue = snap :: queue :=
        List.exists_cons_of_ne_nil (by rintro heq; simp [heq] at hsnap)
      obtain ⟨post, hpost⟩ := hdecoded s o snap h ho (hnext ▸ List.mem_cons_self)
      obtain ⟨t, ht⟩ : ∃ t, s.step (.deliver i) = some t := by
        obtain ⟨s', htake⟩ : ∃ s', s.takeEvent i = some (snap, s') := by
          obtain ⟨location, queue'⟩ := o
          obtain rfl := hnext
          simp [takeEvent, hi]
        have hadded : s'.childAdded snap = .ok ((s'.alloc post).insertPosts [s'.nextRef]) :=
          bind_eq_ok.mpr ⟨post, hpost, rfl⟩
        refine ⟨(s'.alloc post).insertPosts [s'.nextRef], step_eq_some.mpr ?_⟩
        rw [perform, htake, Option.map_some, hadded]
      obtain ⟨o', snap', queue', post', hd⟩ := step_deliver ht
      have hlength := hd.queuedIds_perm.length_eq
      rw [hn, List.length_cons] at hlength
      obtain ⟨is, u, hrun, hempty, hids, hsame⟩ :=
        ih (hkept s i t h ht) (Nat.succ.inj hlength).symm
      exact ⟨i :: is, u, Machine.run_cons_eq_some.mpr ⟨t, ht, hrun⟩, hempty,
        hids.trans (hd.ids_perm (hinv s h)),
        SameSession.trans ⟨hd.currentUser, hd.postsLoaded⟩ hsame⟩

end Deliveries

end App

namespace World

variable [Platform] {ι : Type} [DecidableEq ι] {w w' : World ι} {c : ι} {a : ClientAction}

/-! ### All feeds -/

/-- A feed subscribes only while no observer is attached, and a session begins only on an
unloaded feed or while one is. -/
def FeedSafe (w : World ι) : ι × ClientAction → Prop
  | (c, .feed .viewWillAppear) => (w.app c).SubscribesAlone .viewWillAppear
  | (c, .feed (.signInReply uid succeeded)) =>
      (w.app c).SignsInSubscribed (.signInReply uid succeeded)
  | (c, .accountCreated _ uid) => (w.app c).SignsInSubscribed (.userCreated uid)
  | _ => True

instance (w : World ι) (a : ι × ClientAction) : Decidable (w.FeedSafe a) := by
  obtain ⟨c, a⟩ := a
  rcases a
  case feed b =>
      rcases b <;> dsimp only [FeedSafe] <;> infer_instance
  all_goals
    dsimp only [FeedSafe]
    infer_instance

/-- Every feed is at the same time fed once and covered, from the view of its device. -/
structure FeedsInv (w : World ι) : Prop where
  schema : SchemaInv w
  coherent : Coherent w
  once : ∀ c, (w.app c).OnceInv
  cover : ∀ c, (w.app c).CoverInv

theorem feedsInv_initial : FeedsInv (initial : World ι) where
  schema := schemaInv_initial
  coherent := coherent_initial
  once _ := App.onceInv_launch none .empty
  cover _ := App.coverInv_launch none .empty

/-- A device is shown more writes than before. -/
theorem feed_refresh (w₁ : World ι) (honce : (w₁.app c).OnceInv) (hcover : (w₁.app c).CoverInv)
    (hview : (w₁.app c).view = w.localView c) (hsub : w.db.viewSeq c ⊆ w₁.db.viewSeq c) :
    ((w₁.refresh c).app c).OnceInv ∧ ((w₁.refresh c).app c).CoverInv := by
  rw [app_refresh_self]
  have hgrows : (w₁.app c).Grows (.viewChanged (w₁.localView c)) :=
    App.grows_of_subset hview hsub
  exact ⟨honce.step hgrows (fun hsubscribes => hsubscribes.elim) rfl,
    hcover.step (a := .viewChanged (w₁.localView c)) trivial rfl⟩

theorem feed_issue (w₁ : World ι) (hdb : w₁.db = w.db) (write : Write)
    (honce : (w₁.app c).OnceInv) (hcover : (w₁.app c).CoverInv)
    (hview : (w₁.app c).view = w.localView c) :
    ((w₁.issue c write).app c).OnceInv ∧ ((w₁.issue c write).app c).CoverInv :=
  feed_refresh { w₁ with db := w₁.db.issue c write } honce hcover hview
    (grows_issue w₁ hdb write)

/-- **Every feed stays exact**, one step of one device at a time. -/
theorem FeedsInv.step (h : FeedsInv w) (ha : Accepted a) (hg : FeedSafe w (c, a))
    (hst : Step w c a w') : FeedsInv w' := by
  have hboth : (w'.app c).OnceInv ∧ (w'.app c).CoverInv := by
    have honce := h.once c
    have hcover := h.cover c
    have hview := h.coherent c
    cases hst with
    | @feed b a' app hinput happ =>
        have hgrows : (w.app c).Grows a' := by
          cases a' with
          | viewChanged view => exact absurd rfl (input_ne_viewChanged hinput view)
          | _ => trivial
        have hguards : (w.app c).SubscribesAlone a' ∧ (w.app c).SignsInSubscribed a' := by
          cases b with
          | viewWillAppear =>
              obtain rfl := Option.some.inj hinput
              exact ⟨hg, trivial⟩
          | signInReply uid succeeded =>
              obtain ⟨-, hinput⟩ := Option.ite_none_right_eq_some.mp hinput
              obtain rfl := Option.some.inj hinput
              exact ⟨fun hsubscribes => hsubscribes.elim, hg⟩
          | _ =>
              obtain rfl := Option.some.inj hinput
              exact ⟨fun hsubscribes => hsubscribes.elim, trivial⟩
        simp only [setApp, app_modify_self]
        exact ⟨honce.step hgrows hguards.1 happ, hcover.step hguards.2 happ⟩
    | @tappedInterested key d write app hkey hd henabled happ =>
        have hstep := App.step_of_tap hd henabled happ
        have hsame : ({ w with keys := key :: w.keys }.setApp c app).app c = app := by
          simp [setApp, World.app]
        refine feed_issue ({ w with keys := key :: w.keys }.setApp c app) rfl write ?_ ?_ ?_
        all_goals rw [hsame]
        · exact honce.step (a := .tappedInterested key) trivial
            (fun hsubscribes => hsubscribes.elim) hstep
        · exact hcover.step (a := .tappedInterested key) trivial hstep
        · exact (App.step_view hstep (by rintro view ⟨⟩)).trans hview
    | uploadSucceeds | signUpSucceeds =>
        refine feed_issue _ rfl _ ?_ ?_ ?_
        all_goals simpa only [app_modify_self]
    | @accountCreated i uid user hfresh =>
        simp only [app_modify_self]
        exact ⟨honce.step (a := .userCreated uid) trivial (fun hsubscribes => hsubscribes.elim) rfl,
          hcover.step (a := .userCreated uid) hg rfl⟩
    | arrive hdb => exact ⟨honce, hcover⟩
    | reject hdb => exact ha.elim
    | sync hdb =>
        exact feed_refresh { w with db := _ } honce hcover hview (Replica.viewSeq_subset_sync hdb)
    | terminate | trapped =>
        simp only [World.trapped, World.terminate, app_modify_self]
        exact ⟨App.onceInv_launch _ _, App.coverInv_launch _ _⟩
    | _ =>
        simp only [app_modify_self]
        exact ⟨honce, hcover⟩
  refine ⟨h.schema.step ha hst, hst.coherent h.coherent, fun d => ?_, fun d => ?_⟩
  all_goals
    by_cases hd : d = c
    · subst hd
      first | exact hboth.1 | exact hboth.2
    · rw [World.app, hst.clients_of_ne hd]
      first | exact h.once d | exact h.cover d

theorem feedsInv_of_run {as : List (ι × ClientAction)}
    (hrun : accepted.run initial as = some w)
    (hg : accepted.Guarded FeedSafe (initial : World ι) as) : FeedsInv w :=
  hg.run_invariant (fun _ _ _ hw ha hst => by
    obtain ⟨hacc, hst⟩ := Machine.restrict_step.mp hst
    exact hw.step hacc ha (step_cases hst)) feedsInv_initial hrun

/-! ### Every feed shows everything -/

/-- The network delivers a write, tells a device of some, or the device tells its feed. -/
def Tells : ClientAction → Prop
  | .arrive | .sync _ | .feed (.deliver _) => True
  | _ => False

theorem Delivers.tells (ha : Delivers a) : Tells a := by
  cases a with
  | arrive | sync => trivial
  | _ => exact ha.elim

omit [DecidableEq ι] in
theorem Tells.safe (ha : Tells a) (c : ι) : Accepted a ∧ FeedSafe w (c, a) := by
  cases a with
  | arrive | sync => exact ⟨trivial, trivial⟩
  | feed b =>
      cases b with
      | deliver i => exact ⟨trivial, trivial⟩
      | _ => exact ha.elim
  | _ => exact ha.elim

/-- What safe steps keep is kept by runs of actions that are safe everywhere. -/
theorem run_safe {I : World ι → Prop}
    (hstep : ∀ {w w' : World ι} {c a}, I w → Accepted a → FeedSafe w (c, a) →
      Step w c a w' → I w') (h : I w) {bs : List (ι × ClientAction)}
    (hbs : ∀ a ∈ bs, ∀ w : World ι, Accepted a.2 ∧ FeedSafe w a)
    (hrun : machine.run w bs = some w') : accepted.run w bs = some w' ∧ I w' := by
  induction bs generalizing w with
  | nil =>
      obtain rfl := Option.some.inj hrun
      exact ⟨rfl, h⟩
  | cons a bs ih =>
      obtain ⟨w₁, hst, hrun⟩ := Machine.run_cons_eq_some.mp hrun
      obtain ⟨hacc, hsafe⟩ := hbs a List.mem_cons_self w
      obtain ⟨hrun, hinv⟩ := ih (hstep h hacc hsafe (step_cases hst))
        (fun b hb => hbs b (List.mem_cons_of_mem _ hb)) hrun
      exact ⟨Machine.run_cons_eq_some.mpr
        ⟨w₁, Machine.restrict_step.mpr ⟨hacc, hst⟩, hrun⟩, hinv⟩

theorem FeedsInv.run_tells (h : FeedsInv w) {bs : List (ι × ClientAction)}
    (hbs : ∀ a ∈ bs, Tells a.2) (hrun : machine.run w bs = some w') :
    accepted.run w bs = some w' ∧ FeedsInv w' :=
  run_safe FeedsInv.step h (fun a ha _ => (hbs a ha).safe a.1) hrun

/-- What the network does keeps all sessions. -/
theorem sameSession_of_delivers {bs : List (ι × ClientAction)} (hbs : ∀ a ∈ bs, Delivers a.2)
    (hrun : machine.run w bs = some w') (d : ι) : App.SameSession (w.app d) (w'.app d) := by
  induction bs generalizing w with
  | nil =>
      obtain rfl := Option.some.inj hrun
      exact ⟨rfl, rfl⟩
  | cons a bs ih =>
      obtain ⟨c, b⟩ := a
      obtain ⟨w₁, hst, hrun⟩ := Machine.run_cons_eq_some.mp hrun
      have hb : Delivers b := hbs _ List.mem_cons_self
      have hone : App.SameSession (w.app d) (w₁.app d) := by
        cases step_cases hst with
        | trapped htrap =>
            cases b with
            | arrive | sync =>
                obtain ⟨_, -, heq⟩ := Option.map_eq_some_iff.mp htrap
                cases heq
            | _ => exact hb.elim
        | arrive => exact ⟨rfl, rfl⟩
        | sync =>
            by_cases hd : d = c
            · subst hd
              rw [app_refresh_self]
              exact ⟨rfl, rfl⟩
            · simp only [World.app, (step_cases hst).clients_of_ne hd]
              exact ⟨rfl, rfl⟩
        | _ => exact hb.elim
      exact hone.trans (ih (fun b hb => hbs b (List.mem_cons_of_mem _ hb)) hrun)

/-- The events queued for the feed of a device are delivered. -/
def deliveries (c : ι) (is : List ℕ) : List (ι × ClientAction) :=
  is.map fun i => (c, .feed (.deliver i))

omit [DecidableEq ι] in
theorem tells_deliveries {is : List ℕ} : ∀ a ∈ deliveries c is, Tells a.2 := by
  rintro a ha
  obtain ⟨i, -, rfl⟩ := List.mem_map.mp ha
  trivial

@[simp] theorem app_setApp (w : World ι) (c : ι) (t : App) : (w.setApp c t).app c = t := by
  simp [setApp]

@[simp] theorem setApp_setApp (w : World ι) (c : ι) (s t : App) :
    (w.setApp c s).setApp c t = w.setApp c t := by
  simp [setApp, World.modify]

/-- What an application reads from the services does not depend on itself. -/
theorem input_setApp (w : World ι) (c : ι) (app : App) (b : FeedAction) :
    (w.setApp c app).input c b = w.input c b := by
  cases b <;> rfl

/-- A run of the application of a device is one of the world. -/
theorem run_feed (bs : List FeedAction) {as : List Action} {t : App}
    (hinput : bs.map (w.input c) = as.map some) (h : App.machine.run (w.app c) as = some t) :
    machine.run w (bs.map fun b => (c, .feed b)) = some (w.setApp c t) := by
  induction bs generalizing w as with
  | nil =>
      obtain rfl : as = [] := List.map_eq_nil_iff.mp hinput.symm
      obtain rfl := Option.some.inj h
      simp [setApp, World.modify, World.app]
  | cons b bs ih =>
      obtain ⟨a, as, rfl, hb, hbs⟩ := List.map_eq_cons_iff.mp hinput.symm
      obtain ⟨s, hs, hrun⟩ := Machine.run_cons_eq_some.mp h
      have hst : machine.step w (c, .feed b) = some (w.setApp c s) := by
        simp [machine, World.step, perform, ← hb, App.step_eq_some.mp hs, Except.map]
      refine Machine.run_cons_eq_some.mpr ⟨_, hst, ?_⟩
      rw [← setApp_setApp w c s t]
      refine ih ?_ (by rwa [app_setApp])
      rw [hbs]
      exact List.map_congr_left fun b _ => input_setApp w c s b

theorem run_deliveries {is : List ℕ} {t : App}
    (h : App.machine.run (w.app c) (is.map .deliver) = some t) :
    machine.run w (deliveries c is) = some (w.setApp c t) := by
  have hrun := run_feed (is.map .deliver) (by simp [Function.comp_def, input]) h
  simpa [deliveries, Function.comp_def] using hrun

/-- The queue of a device's feed can be emptied. -/
theorem FeedsInv.exists_told (h : FeedsInv w) (c : ι) : ∃ is t,
    machine.run w (deliveries c is) = some (w.setApp c t) ∧ t.queuedIds = [] ∧
      App.SameSession (w.app c) t := by
  obtain ⟨is, t, happ, hempty, -, hsame⟩ := App.exists_deliveries
    (I := Faithful fun key post => .newPost key post ∈ w.db.viewSeq c)
    (fun _ hs => hs.toFeedInv) (fun _ _ _ hs hst => hs.step (by rintro _ ⟨⟩) hst)
    (fun _ _ _ hs ho hsnap =>
      let ⟨_, post, _, hpost, _⟩ := hs.fetchedPost ho hsnap
      ⟨post, hpost⟩) (h.schema.apps c)
  exact ⟨is, t, run_deliveries happ, hempty, hsame⟩

/-- A feed whose queue is empty shows the view of its device. -/
theorem FeedsInv.postIds_perm (h : FeedsInv w) (huser : (w.app c).currentUser ≠ none)
    (hloaded : (w.app c).feed.postsLoaded = true) (hempty : (w.app c).queuedIds = []) :
    (w.app c).postIds ~ ((w.localView c).sub ["Posts"]).childKeys.map some := by
  have hexact := App.exact_of_inv (h.once c) (h.cover c) huser hloaded
  rwa [App.Exact, hempty, List.append_nil, h.coherent c] at hexact

/-- **A feed is the view of its device.** Whenever somebody is signed in and the feed counts
as loaded, the feed and the events queued for it are together the posts that the device sees
in the database, each once. The events can always be delivered, none of them traps, and then
the feed itself is these posts. -/
theorem feeds_exact {as : List (ι × ClientAction)} (hrun : accepted.run initial as = some w)
    (hg : accepted.Guarded FeedSafe (initial : World ι) as) (c : ι)
    (huser : (w.app c).currentUser ≠ none) (hloaded : (w.app c).feed.postsLoaded = true) :
    (w.app c).Exact ∧ ∃ is w', accepted.run w (deliveries c is) = some w' ∧ w'.db = w.db ∧
      (∀ d ≠ c, w'.clients d = w.clients d) ∧
      (w'.app c).postIds ~ ((w'.localView c).sub ["Posts"]).childKeys.map some := by
  have hinv := feedsInv_of_run hrun hg
  refine ⟨App.exact_of_inv (hinv.once c) (hinv.cover c) huser hloaded, ?_⟩
  obtain ⟨is, t, htold, hempty, hsame⟩ := hinv.exists_told c
  obtain ⟨hacc, hinv'⟩ := hinv.run_tells tells_deliveries htold
  refine ⟨is, w.setApp c t, hacc, rfl, fun d hd => by simp [setApp, hd], ?_⟩
  refine hinv'.postIds_perm ?_ ?_ ?_
  all_goals rw [app_setApp]
  · exact hsame.currentUser ▸ huser
  · exact hsame.postsLoaded ▸ hloaded
  · exact hempty

/-- A run of such actions that changes nothing but the applications of some devices. -/
structure RunsOn (S : ClientAction → Prop) (cs : List ι) (w : World ι)
    (bs : List (ι × ClientAction)) (w' : World ι) : Prop where
  run : machine.run w bs = some w'
  actions : ∀ a ∈ bs, S a.2
  db : w'.db = w.db
  others : ∀ d ∉ cs, w'.clients d = w.clients d

theorem RunsOn.setApp {S : ClientAction → Prop} {bs : List (ι × ClientAction)} {t : App}
    (h : machine.run w bs = some (w.setApp c t)) (hbs : ∀ a ∈ bs, S a.2) :
    RunsOn S [c] w bs (w.setApp c t) where
  run := h
  actions := hbs
  db := rfl
  others d hd := by
    have hne : d ≠ c := by simpa using hd
    simp [World.setApp, hne]

theorem RunsOn.cons {S : ClientAction → Prop} {cs : List ι} {bs bs' : List (ι × ClientAction)}
    {w₁ : World ι} (h : RunsOn S [c] w bs w₁) (h' : RunsOn S cs w₁ bs' w') :
    RunsOn S (c :: cs) w (bs ++ bs') w' where
  run := Machine.run_append_eq_some.mpr ⟨w₁, h.run, h'.run⟩
  actions a ha := (List.mem_append.mp ha).elim (h.actions a) (h'.actions a)
  db := h'.db.trans h.db
  others d hd := by
    obtain ⟨hne, hcs⟩ := not_or.mp (mt List.mem_cons.mpr hd)
    rw [h'.others d hcs, h.others d (by simpa using hne)]

/-- What can be done on each device alone can be done on all of them. -/
theorem exists_runsOn {S : ClientAction → Prop} {I : World ι → Prop} {Q : App → App → Prop}
    (hone : ∀ w, I w → ∀ c, ∃ bs w', RunsOn S [c] w bs w' ∧ I w' ∧ Q (w.app c) (w'.app c))
    (h : I w) {cs : List ι} (hcs : cs.Nodup) : ∃ bs w', RunsOn S cs w bs w' ∧ I w' ∧
      ∀ c ∈ cs, Q (w.app c) (w'.app c) := by
  induction cs generalizing w with
  | nil => exact ⟨[], w, ⟨rfl, by simp, rfl, fun _ _ => rfl⟩, h, by simp⟩
  | cons c cs ih =>
      obtain ⟨hc, hcs⟩ := List.nodup_cons.mp hcs
      obtain ⟨bs, w₁, hruns₁, hw₁, hdone⟩ := hone w h c
      obtain ⟨bs', w', hruns, hw', hall⟩ := ih hw₁ hcs
      refine ⟨bs ++ bs', w', hruns₁.cons hruns, hw', fun d hd => ?_⟩
      rcases List.mem_cons.mp hd with rfl | hd
      · have hsame : w'.app d = w₁.app d := congrArg Client.app (hruns.others d hc)
        exact hsame ▸ hdone
      · have hne : d ∉ [c] := fun hmem => hc (List.mem_singleton.mp hmem ▸ hd)
        have hsame : w₁.app d = w.app d := congrArg Client.app (hruns₁.others d hne)
        exact hsame ▸ hall d hd

theorem FeedsInv.exists_runsOn_told (h : FeedsInv w) (c : ι) : ∃ bs w',
    RunsOn Tells [c] w bs w' ∧ FeedsInv w' ∧ (w'.app c).queuedIds = [] ∧
      App.SameSession (w.app c) (w'.app c) := by
  obtain ⟨is, t, htold, hempty, hsame⟩ := h.exists_told c
  refine ⟨deliveries c is, w.setApp c t, .setApp htold tells_deliveries,
    (h.run_tells tells_deliveries htold).2, ?_⟩
  rw [app_setApp]
  exact ⟨hempty, hsame⟩

/-- A feed whose queue is empty shows the posts of the server when its device is up to
date. -/
theorem FeedsInv.postIds_perm_server (h : FeedsInv w) (hkeys : KeysInv w)
    (hview : w.db.viewSeq c = w.db.serverSeq) (huser : (w.app c).currentUser ≠ none)
    (hloaded : (w.app c).feed.postsLoaded = true) (hempty : (w.app c).queuedIds = []) :
    (w.app c).postIds ~ (w.db.serverSeq.filterMap Write.newPostKey).map some := by
  have hfeed := h.postIds_perm huser hloaded hempty
  rw [localView, hview] at hfeed
  exact hfeed.trans ((childKeys_posts h.schema.causal.server
    hkeys.different.nodup_serverSeq).map _)

/-- **Every post reaches every feed.** Wherever a run of finitely many devices stands, the
network and the queues alone can bring it about that the server has every write on its way,
and that the feed of each device on which somebody is signed in and the feed counts as loaded
shows, each once, the posts of the server's log: those for which `newPost` was called, but for
the writes that were lost with a process. -/
theorem feeds_agree [Fintype ι] {as : List (ι × ClientAction)}
    (hrun : accepted.run initial as = some w)
    (hg : accepted.Guarded FeedSafe (initial : World ι) as) :
    ∃ bs w', accepted.run w bs = some w' ∧ (∀ a ∈ bs, Tells a.2) ∧
      (∀ x, w.db.Issued x → x ∈ w'.db.serverSeq) ∧
      ∀ c, (w.app c).currentUser ≠ none → (w.app c).feed.postsLoaded = true →
        (w'.app c).postIds ~ (w'.db.serverSeq.filterMap Write.newPostKey).map some := by
  have hinv := feedsInv_of_run hrun hg
  obtain ⟨bs, w₁, hrun₁, hbs, hsettled, hissued⟩ := exists_delivered w
  obtain ⟨hacc₁, hinv₁⟩ := hinv.run_tells (fun a ha => (hbs a ha).tells) hrun₁
  obtain ⟨bs', w', ⟨hrun', hbs', hdb, -⟩, hinv', htold⟩ :=
    exists_runsOn (Q := fun s t => t.queuedIds = [] ∧ App.SameSession s t)
      (fun _ hw => hw.exists_runsOn_told) hinv₁ (Finset.nodup_toList (Finset.univ : Finset ι))
  obtain ⟨hacc', -⟩ := hinv₁.run_tells hbs' hrun'
  have hall := Machine.run_append_eq_some.mpr ⟨w₁, hacc₁, hacc'⟩
  refine ⟨bs ++ bs', w', hall, fun a ha => ?_, fun x hx => ?_, fun c huser hloaded => ?_⟩
  · exact (List.mem_append.mp ha).elim (fun ha => (hbs a ha).tells) (hbs' a)
  · exact hdb ▸ hissued x hx
  · obtain ⟨hempty, hsame⟩ := htold c (Finset.mem_toList.mpr (Finset.mem_univ c))
    have hsession := (sameSession_of_delivers hbs hrun₁ c).trans hsame
    have hkeys := (schema_keys_of_run (Machine.run_append_eq_some.mpr ⟨w, hrun, hall⟩)).2
    exact hinv'.postIds_perm_server hkeys ((hdb ▸ hsettled : w'.db.Settled).viewSeq c)
      (hsession.currentUser ▸ huser) (hsession.postsLoaded ▸ hloaded) hempty

end World

/-! ### Two feeds -/

namespace World

attribute [local instance] Platform.reference

/-- Ann posts from one device and signs in on another. -/
def annsDevices : List (Fin 2 × ClientAction) :=
  onTwo (annSignsUp ++ annPosts ++ [(0, .arrive), (0, .arrive)] ++ annSignsIn)

theorem run_annsDevices : ∃ w : World (Fin 2), accepted.run initial annsDevices = some w ∧
    ∀ c, (w.app c).currentUser = some "ann" ∧ (w.app c).feed.postsLoaded = true := by
  have hrun : (accepted.run (initial : World (Fin 2)) annsDevices).map (fun w => decide
      (∀ c, (w.app c).currentUser = some "ann" ∧ (w.app c).feed.postsLoaded = true)) =
      some true := by decide
  obtain ⟨w, hw, hfacts⟩ := Option.map_eq_some_iff.mp hrun
  exact ⟨w, hw, of_decide_eq_true hfacts⟩

theorem guarded_annsDevices :
    accepted.Guarded FeedSafe (initial : World (Fin 2)) annsDevices := by decide

theorem feeds_exact_two : ∃ w : World (Fin 2), accepted.run initial annsDevices = some w ∧
    ∀ c, (w.app c).Exact := by
  obtain ⟨w, hw, hfacts⟩ := run_annsDevices
  refine ⟨w, hw, fun c => ?_⟩
  exact (feeds_exact hw guarded_annsDevices c (by simp [(hfacts c).1]) (hfacts c).2).1

theorem feeds_agree_two : ∃ w w' : World (Fin 2), accepted.run initial annsDevices = some w ∧
    ∀ c, (w'.app c).postIds ~ (w'.db.serverSeq.filterMap Write.newPostKey).map some := by
  obtain ⟨w, hw, hfacts⟩ := run_annsDevices
  obtain ⟨-, w', -, -, -, hagree⟩ := feeds_agree hw guarded_annsDevices
  exact ⟨w, w', hw, fun c => hagree c (by simp [(hfacts c).1]) (hfacts c).2⟩

end World

end MDBSocials
