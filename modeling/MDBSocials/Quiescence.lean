import MDBSocials.Feeds
import MDBSocials.Lib.Fair

/-!
# When Nothing More Is Written

The devices never agree to stop, and the network may take its time. But when users have
stopped to write, and the network and the queues of the feeds go on being served, in whatever
order, all devices come to the same view for good, and the feeds that are not left alone show
all of its posts.

## Main results

* `Step.posts_suffix`: a feed that stays loaded loses no row.
* `eventually_settled`: in the end every device sees what the server has.
* `feeds_settle`: in the end every feed that stays loaded shows exactly the posts of the
  server's log.
-/

namespace MDBSocials

open Filter
open scoped List

/-! ### The rows of one feed -/

namespace App

variable [Platform]

/-- A loaded feed keeps its rows. -/
theorem posts_suffix_of_step {s t : App} {a : Action} (hloaded : s.feed.postsLoaded = true)
    (h : s.step a = some t) : s.feed.posts <:+ t.feed.posts := by
  cases step_feed h with
  | subscribes hsub => exact absurd (hloaded.symm.trans hsub.2) (by decide)
  | viewChanged view => exact List.suffix_refl _
  | deliver hd => exact hd.posts ▸ List.suffix_cons _ _
  | kept hsub hview hdeliver hkept => exact hkept.posts ▸ List.suffix_refl _

end App

namespace World

variable [Platform] {ι : Type} [DecidableEq ι] {w w' : World ι} {c d : ι} {a : ClientAction}

/-- **A feed that stays loaded** loses no row: no process that ends has a loaded feed when
it is launched again. -/
theorem Step.posts_suffix (h : Step w c a w') (hloaded : (w.app d).feed.postsLoaded = true)
    (hloaded' : (w'.app d).feed.postsLoaded = true) :
    (w.app d).feed.posts <:+ (w'.app d).feed.posts := by
  by_cases hd : d = c
  · subst hd
    have hfeed : ∀ w₁ : World ι, ((w₁.refresh d).app d).feed = (w₁.app d).feed := fun w₁ => by
      rw [app_refresh_self]
      rfl
    cases h with
    | @feed b a' app hinput happ =>
        rw [app_setApp]
        exact App.posts_suffix_of_step hloaded happ
    | @tappedInterested key d' write app hkey hd' henabled happ =>
        have hstep : (w.app d).step (.tappedInterested key) = some app := by
          refine App.step_eq_some.mpr ?_
          simp [App.perform, hd', henabled, happ, Except.map]
        have hsame : ({ w with keys := key :: w.keys }.setApp d app).app d = app := by
          simp [setApp, World.app]
        rw [World.issue, hfeed]
        exact hsame.symm ▸ App.posts_suffix_of_step hloaded hstep
    | uploadSucceeds | signUpSucceeds =>
        rw [World.issue, hfeed]
        simp only [World.app, World.modify, Function.update_self]
        exact List.suffix_refl _
    | reject hdb | sync hdb =>
        rw [hfeed]
        exact List.suffix_refl _
    | arrive hdb => exact List.suffix_refl _
    | terminate | trapped =>
        simp only [World.trapped, World.terminate, app_modify_self] at hloaded'
        cases hloaded'
    | _ =>
        rw [app_modify_self]
        exact List.suffix_refl _
  · rw [World.app, World.app, h.clients_of_ne hd]

/-- A delivery that does not end the process adds a row. -/
theorem Step.posts_of_deliver {i : ℕ} (h : Step w c (.feed (.deliver i)) w')
    (hloaded' : (w'.app c).feed.postsLoaded = true) :
    (w'.app c).feed.posts.length = (w.app c).feed.posts.length + 1 := by
  cases h with
  | @feed b a' app hinput happ =>
      obtain rfl := Option.some.inj hinput
      obtain ⟨o, snap, queue, post, hd⟩ := App.step_deliver happ
      rw [app_setApp, hd.posts, List.length_cons]
  | trapped =>
      simp only [World.trapped, World.terminate, app_modify_self] at hloaded'
      cases hloaded'

/-! ### Fairness -/

/-- The completions and touches that write to the database. -/
def Writes : ClientAction → Prop
  | .tappedInterested _ | .uploadSucceeds .. | .signUpSucceeds _ => True
  | _ => False

theorem Step.rests (h : Step w c a w') (ha : ¬ Writes a) : Replica.Rests w.db w'.db := by
  have hdb := h.db
  generalize w'.db = db at hdb ⊢
  cases hdb with
  | unchanged => exact Or.inl rfl
  | tappedInterested | uploadSucceeds | signUpSucceeds => exact absurd trivial ha
  | arrive hdb => exact Or.inr ⟨.arrive c, hdb, by rintro _ _ ⟨⟩⟩
  | reject hdb => exact Or.inr ⟨.reject c, hdb, by rintro _ _ ⟨⟩⟩
  | sync hdb => exact Or.inr ⟨.sync c _, hdb, by rintro _ _ ⟨⟩⟩
  | crash => exact Or.inr ⟨.crash c, rfl, by rintro _ _ ⟨⟩⟩

theorem Step.db_arrive (h : Step w c .arrive w') : w.db.arrive c = some w'.db := by
  cases h with
  | arrive hdb => exact hdb
  | trapped htrap =>
      obtain ⟨db, -, heq⟩ := Option.map_eq_some_iff.mp htrap
      cases heq

theorem Step.db_sync {n : ℕ} (h : Step w c (.sync n) w') : w.db.sync c n = some w'.db := by
  cases h with
  | sync hdb => exact hdb
  | trapped htrap =>
      obtain ⟨db, -, heq⟩ := Option.map_eq_some_iff.mp htrap
      cases heq

/-- In a fair run each of these happens again and again, as long as there is something to do:
the oldest write in the queue of a device arrives, the device is told of all that the server
has, and an event is delivered to its feed. -/
structure Fair (ws : ℕ → World ι) (as : ℕ → ι × ClientAction) : Prop where
  arrives : ∀ c, ∃ᶠ n in atTop, (ws n).db.pending c = [] ∨ as n = (c, .arrive)
  syncs : ∀ c, ∃ᶠ n in atTop, (ws n).db.seen c = (ws n).db.log.length ∨
    as n = (c, .sync (ws n).db.log.length)
  delivers : ∀ c, ∃ᶠ n in atTop, ((ws n).app c).queuedIds = [] ∨
    ∃ i, as n = (c, .feed (.deliver i))

variable {ws : ℕ → World ι} {as : ℕ → ι × ClientAction}

/-- **The database settles.** -/
theorem eventually_settled [Finite ι] (hrun : machine.Forever ws as) (hfair : Fair ws as)
    (hquiet : ∀ᶠ n in atTop, ¬ Writes (as n).2) :
    ∃ log, ∀ᶠ n in atTop, (ws n).db.Settled ∧ (ws n).db.log = log := by
  refine Replica.eventually_settled (hquiet.mono fun n hn => (step_cases (hrun n)).rests hn)
    (fun c => (hfair.arrives c).mono fun n hn => hn.imp_right fun ha => ?_)
    (fun c => (hfair.syncs c).mono fun n hn => hn.imp_right fun ha => ?_)
  · have hst := hrun n
    rw [ha] at hst
    exact (step_cases hst).db_arrive
  · have hst := hrun n
    rw [ha] at hst
    exact (step_cases hst).db_sync

/-- What a loaded feed shows and what is queued for it are as many as the posts at the
server, once the device is up to date. -/
theorem FeedsInv.length_queuedIds (h : FeedsInv w) (huser : (w.app c).currentUser ≠ none)
    (hloaded : (w.app c).feed.postsLoaded = true) (hview : w.db.viewSeq c = w.db.serverSeq) :
    (w.app c).queuedIds.length =
      (w.serverTree.sub ["Posts"]).childKeys.length - (w.app c).feed.posts.length := by
  have hexact := (App.exact_of_inv (h.once c) (h.cover c) huser hloaded).length_eq
  rw [List.length_append, List.length_map, h.coherent c, localView, hview] at hexact
  rw [serverTree, ← hexact, App.postIds, List.length_map, Nat.add_sub_cancel_left]

/-- **Feeds settle.** In every infinite run in which, from some point on, nothing is written,
and which is fair to the network and to the queues of the feeds, the server comes to a log
that stays, every device comes to see what the server has, and the feed of each device on
which from some point on somebody stays signed in and the feed stays loaded comes to show,
each once and for good, the posts of that log. -/
theorem feeds_settle [Finite ι] (hrun : accepted.Forever ws as) (hinit : ws 0 = initial)
    (hsafe : ∀ n, FeedSafe (ws n) (as n)) (hfair : Fair ws as)
    (hquiet : ∀ᶠ n in atTop, ¬ Writes (as n).2) :
    ∃ us : List Write, (∀ᶠ n in atTop, (ws n).db.serverSeq = us ∧
        ∀ c, (ws n).localView c = applyWrites .empty us) ∧
      ∀ c, (∀ᶠ n in atTop, ((ws n).app c).currentUser ≠ none ∧
          ((ws n).app c).feed.postsLoaded = true) →
        ∀ᶠ n in atTop, ((ws n).app c).postIds ~ (us.filterMap Write.newPostKey).map some := by
  have hforever : machine.Forever ws as := fun n => (Machine.restrict_step.mp (hrun n)).2
  have hinv : ∀ n, FeedsInv (ws n) := by
    refine hrun.invariant (fun s a t hs ha hst => ?_) hsafe (hinit ▸ feedsInv_initial)
    obtain ⟨hacc, hst⟩ := Machine.restrict_step.mp hst
    exact hs.step hacc ha (step_cases hst)
  have hkeys : ∀ n, KeysInv (ws n) := fun n =>
    (schema_keys_of_run (hinit ▸ hrun.run n)).2
  obtain ⟨log, hlog⟩ := eventually_settled hforever hfair hquiet
  refine ⟨log.map Prod.snd, hlog.mono ?_, fun c hsession => ?_⟩
  · rintro n ⟨hsettled, hn⟩
    have hserver : (ws n).db.serverSeq = log.map Prod.snd := congrArg _ hn
    exact ⟨hserver, fun d => by rw [localView, hsettled.viewSeq d, hserver]⟩
  · -- from some point on, the feed stays loaded and the posts at the server stay the same
    have hgood := hlog.and hsession
    have hnext := (tendsto_add_atTop_nat 1).eventually hgood
    have hqueued : ∀ n, (((ws n).db.Settled ∧ (ws n).db.log = log) ∧
        ((ws n).app c).currentUser ≠ none ∧ ((ws n).app c).feed.postsLoaded = true) →
        ((ws n).app c).queuedIds.length = ((applyWrites .empty (log.map Prod.snd)).sub
          ["Posts"]).childKeys.length - ((ws n).app c).feed.posts.length := by
      rintro n ⟨⟨hsettled, hn⟩, huser, hloaded⟩
      rw [(hinv n).length_queuedIds huser hloaded (hsettled.viewSeq c), serverTree,
        Replica.serverSeq, hn]
    have hempty : ∀ᶠ n in atTop, ((ws n).app c).queuedIds.length = 0 := by
      refine Machine.eventually_eq_zero ?_ ?_
      · refine (hgood.and hnext).mono ?_
        rintro n ⟨hn, hn'⟩
        rw [hqueued n hn, hqueued (n + 1) hn']
        exact Nat.sub_le_sub_left
          ((step_cases (hforever n)).posts_suffix hn.2.2 hn'.2.2).length_le _
      · refine ((hfair.delivers c).and_eventually (hgood.and hnext)).mono ?_
        rintro n ⟨hdeliver, hn, hn'⟩
        rcases hdeliver with hdone | ⟨i, ha⟩
        · exact Or.inl (by rw [hdone]; rfl)
        · have hst := hforever n
          rw [ha] at hst
          have hmore := (step_cases hst).posts_of_deliver hn'.2.2
          rw [hqueued n hn, hqueued (n + 1) hn', hmore]
          omega
    refine (hgood.and hempty).mono ?_
    rintro n ⟨⟨⟨hsettled, hn⟩, huser, hloaded⟩, hzero⟩
    have hposts := (hinv n).postIds_perm_server (hkeys n) (hsettled.viewSeq c) huser hloaded
      (List.length_eq_zero_iff.mp hzero)
    rwa [Replica.serverSeq, hn] at hposts

/-- A loaded feed that appears is reloaded, and a second time nothing more happens. -/
theorem step_viewWillAppear_loaded (huser : (w.app c).currentUser ≠ none)
    (hloaded : (w.app c).feed.postsLoaded = true) :
    accepted.step w (c, .feed .viewWillAppear) = some (w.setApp c (w.app c).reloadData) := by
  have hreload : (w.app c).viewWillAppear = (w.app c).reloadData := by
    rw [App.viewWillAppear, if_neg huser, if_neg (by simp [hloaded])]
  refine Machine.restrict_step.mpr ⟨trivial, ?_⟩
  simp [machine, World.step, perform, input, App.perform, hreload, Except.map]

end World

/-! ### Two devices that have nothing left to do -/

namespace World

attribute [local instance] Platform.reference

/-- Ann's post has come to both of her devices. -/
def annsDevicesSettle : List (Fin 2 × ClientAction) :=
  annsDevices ++ onTwo [(0, .sync 2), (1, .feed (.deliver 0)), (0, .feed (.deliver 0))]

/-- After that the feed of one device appears again and again. -/
theorem forever_annsDevices : ∃ (w : World (Fin 2)) (ws : ℕ → World (Fin 2))
    (as : ℕ → Fin 2 × ClientAction), accepted.Forever ws as ∧ ws 0 = initial ∧
      (∀ n, FeedSafe (ws n) (as n)) ∧
      (∀ᶠ n in atTop, ws n = w ∧ as n = (0, .feed .viewWillAppear)) ∧
      (∀ c, (w.app c).currentUser ≠ none ∧ (w.app c).feed.postsLoaded = true ∧
        (w.app c).queuedIds = [] ∧ w.db.pending c = [] ∧ w.db.seen c = w.db.log.length) ∧
      w.db.serverSeq.filterMap Write.newPostKey = ["-L0"] := by
  have hrun₀ : (accepted.run (initial : World (Fin 2)) annsDevicesSettle).map (fun w => decide
      ((w.app 0).currentUser ≠ none ∧ (w.app 0).feed.postsLoaded = true)) = some true := by
    decide
  have hrun : (accepted.run (initial : World (Fin 2))
      (annsDevicesSettle ++ [(0, .feed .viewWillAppear)])).map (fun w => decide
        ((∀ c, (w.app c).currentUser ≠ none ∧ (w.app c).feed.postsLoaded = true ∧
          (w.app c).queuedIds = [] ∧ w.db.pending c = [] ∧ w.db.seen c = w.db.log.length) ∧
        w.db.serverSeq.filterMap Write.newPostKey = ["-L0"])) = some true := by decide
  obtain ⟨w₀, hw₀, hfacts₀⟩ := Option.map_eq_some_iff.mp hrun₀
  obtain ⟨huser, hloaded⟩ := of_decide_eq_true hfacts₀
  obtain ⟨w, hw, hfacts⟩ := Option.map_eq_some_iff.mp hrun
  obtain ⟨hfacts, hserver⟩ := of_decide_eq_true hfacts
  have hreloaded : w = w₀.setApp 0 (w₀.app 0).reloadData := by
    obtain ⟨w₁, hw₁, hst⟩ := Machine.run_snoc_eq_some.mp hw
    obtain rfl := Option.some.inj (hw₀.symm.trans hw₁)
    exact Option.some.inj (hst.symm.trans (step_viewWillAppear_loaded huser hloaded))
  have hstep : accepted.step w (0, .feed .viewWillAppear) = some w := by
    rw [step_viewWillAppear_loaded (hfacts 0).1 (hfacts 0).2.1, hreloaded, app_setApp,
      setApp_setApp]
    rfl
  have hsafe : FeedSafe w (0, .feed .viewWillAppear) := fun hsub =>
    absurd ((hfacts 0).2.1.symm.trans hsub.2) (by decide)
  obtain ⟨ws, as, hforever, hinit, hguard, hend⟩ :=
    Machine.exists_forever hw (G := FeedSafe) (by decide) hstep hsafe
  exact ⟨w, ws, as, hforever, hinit, hguard, eventually_atTop.mpr ⟨_, hend⟩, hfacts, hserver⟩

theorem feeds_settle_two : ∃ (ws : ℕ → World (Fin 2)) (as : ℕ → Fin 2 × ClientAction),
    accepted.Forever ws as ∧ ws 0 = initial ∧ Fair ws as ∧
      ∀ c, ∀ᶠ n in atTop, ((ws n).app c).postIds ~ [some "-L0"] := by
  obtain ⟨w, ws, as, hforever, hinit, hguard, hstays, hfacts, hserver⟩ := forever_annsDevices
  have hfair : Fair ws as := by
    constructor
    all_goals
      refine fun c => (hstays.mono fun n hn => ?_).frequently
      rw [hn.1]
    · exact Or.inl (hfacts c).2.2.2.1
    · exact Or.inl (hfacts c).2.2.2.2
    · exact Or.inl (hfacts c).2.2.1
  obtain ⟨us, hus, hfeeds⟩ := feeds_settle hforever hinit hguard hfair
    (hstays.mono fun n hn => hn.2 ▸ id)
  refine ⟨ws, as, hforever, hinit, hfair, fun c => ?_⟩
  obtain ⟨n, ⟨hn, -⟩, hwn, -⟩ := (hus.and hstays).exists
  rw [hwn] at hn
  have hfeed := hfeeds c (hstays.mono fun n hn => hn.1 ▸ ⟨(hfacts c).1, (hfacts c).2.1⟩)
  rwa [← hn, hserver] at hfeed

end World

end MDBSocials
