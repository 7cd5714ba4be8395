import MDBSocials.AppMachine
import MDBSocials.Lib.Replica

/-!
# All Clients and the Server

The system the application is part of: any number of devices, the Auth accounts, the
database and Storage. The database is a `Replica` of the writes that the devices issue;
each device sees the writes its view holds applied to the empty database.

`World.step` gives one device a turn, or lets the network or the server act for it. What
a device reads of posts comes from its view of the database, the records of users come from
the server and pictures from Storage. A key made by `childByAutoId` was never made before. A
device whose handler traps is launched again, with the session that Auth has persisted.

## Main results

* `step_cases`: everything that a step can do.
* `run_dbEvents` and `run_app`: a run of the world is a run of the replicated log, and a run
  of the application of each device that is not launched again.
* `Step.coherent`: each application is shown the view of its device.
* `KeysInv.step`: no two writes have one key.
-/

namespace MDBSocials

/-! ### State -/

section State

variable [Platform]

/-- A device: the application, and the requests of the helpers that do not belong to the
feed. -/
structure Client where
  app : App := {}
  /-- Pictures on their way to Storage. -/
  uploads : List Upload := []
  /-- Pictures that have arrived there, the completion of whose upload has not run. -/
  uploaded : List Upload := []
  /-- `createUser` requests on their way. -/
  signUps : List NewUser := []
  /-- Accounts that were made, the completion of whose request has not run. -/
  signedUp : List NewUser := []

/-- What can happen in the feed and the detail screen of a device. -/
inductive FeedAction
  | viewWillAppear
  | logOut (signOut revoked : Bool)
  | sessionLoss (revoked : Bool)
  | tappedLogin (uid : Uid)
  | signInReply (uid : Uid) (succeeded : Bool)
  | deliver (observer : ℕ)
  | cellForRowAt (row : ℕ) (cell : CellRef)
  | pictureReply (request : PictureRequest) (succeeded : Bool)
  | userReply (request : UserRequest) (succeeded : Bool)
  | interestedReply (request : InterestedRequest)
  | didSelectRowAt (row : ℕ)
  | detailWillAppear

/-- What can happen to a device. A key is the one `childByAutoId` makes during the
action, and `i` is the position of a request among those of its kind. -/
inductive ClientAction
  | feed (a : FeedAction)
  | tappedInterested (key : Key)
  | newPostWithImage (submission : Submission)
  | pictureStored (i : ℕ)
  | uploadFails (i : ℕ)
  | uploadReplyLost (i : ℕ)
  | uploadSucceeds (i : ℕ) (key : Key)
  | uploadLacksURL (i : ℕ)
  | signUp (user : NewUser)
  | accountCreated (i : ℕ) (uid : Uid)
  | signUpFails (i : ℕ)
  | signUpSucceeds (i : ℕ)
  | arrive
  | reject
  | sync (n : ℕ)
  | terminate

/-- The state of the whole system. -/
structure World (ι : Type) where
  db : Replica ι Write
  storage : StoragePath → Option Data
  accounts : List Uid
  /-- The keys that `childByAutoId` has made. -/
  keys : List Key
  clients : ι → Client
  /-- The calls of `newPost` so far, each with its upload. -/
  created : List (Upload × Write)
  /-- The handlers that trapped so far. -/
  traps : List ((ι × ClientAction) × Trap)

end State

namespace World

variable [Platform] {ι : Type}

/-- Nothing stored, nobody signed up. -/
def initial : World ι where
  db := .empty
  storage _ := none
  accounts := []
  keys := []
  clients _ := {}
  created := []
  traps := []

variable [DecidableEq ι]

/-- The application of a device. -/
def app (w : World ι) (c : ι) : App := (w.clients c).app

/-- The database as the server has it. -/
def serverTree (w : World ι) : Node := applyWrites .empty w.db.serverSeq

/-- The database as a device sees it. -/
def localView (w : World ι) (c : ι) : Node := applyWrites .empty (w.db.viewSeq c)

/-- The database as the server answers a single read: what it has by then, with the device's
own writes on their way on top. -/
def answer (w : World ι) (c : ι) : Node :=
  applyWrites .empty (w.db.serverSeq ++ w.db.pending c)

def modify (w : World ι) (c : ι) (f : Client → Client) : World ι :=
  { w with clients := Function.update w.clients c (f (w.clients c)) }

def setApp (w : World ι) (c : ι) (app : App) : World ι :=
  w.modify c fun client => { client with app }

/-- A device's application is shown its view of the database. -/
def refresh (w : World ι) (c : ι) : World ι :=
  w.setApp c ((w.app c).viewChanged (w.localView c))

/-- A device calls `updateChildValues`, which takes effect in its own view at once. -/
def issue (w : World ι) (c : ι) (write : Write) : World ι :=
  { w with db := w.db.issue c write }.refresh c

/-- A device's process ends and the application is launched again. -/
def terminate (w : World ι) (c : ι) : World ι :=
  let w := { w with db := w.db.crash c }
  w.modify c fun client => { app := .launch client.app.currentUser (w.localView c) }

/-- A key that `childByAutoId` can make. -/
def FreshKey (w : World ι) (key : Key) : Prop := key ∉ w.keys ∧ integerLike key = false

instance (w : World ι) (key : Key) : Decidable (w.FreshKey key) :=
  inferInstanceAs (Decidable (_ ∧ _))

/-! ### Steps -/

/-- The action of the application, with what it reads from the services. Nothing listens at
`User`, so that the server answers `getUserWithId`; `getInterestedUsers` reads below `Posts`,
which the feed listens to, and gets what the device sees there. -/
def input (w : World ι) (c : ι) : FeedAction → Option Action
  | .viewWillAppear => some .viewWillAppear
  | .logOut signOut revoked => some (.logOut signOut revoked)
  | .sessionLoss revoked => some (.sessionLoss revoked)
  | .tappedLogin uid => some (.tappedLogin uid)
  | .signInReply uid succeeded =>
      if succeeded → uid ∈ w.accounts then some (.signInReply uid succeeded) else none
  | .deliver i => some (.deliver i)
  | .cellForRowAt row cell => some (.cellForRowAt row cell)
  | .pictureReply q succeeded =>
      some (.pictureReply q (if succeeded then getData w.storage q.reference else none))
  | .userReply q succeeded =>
      some (.userReply q
        (if succeeded then some ((w.answer c).sub ["User", q.posterId]) else none))
  | .interestedReply q =>
      some (.interestedReply q ((w.localView c).sub ["Posts", q.postId, "Interested"]))
  | .didSelectRowAt row => some (.didSelectRowAt row)
  | .detailWillAppear => some .detailWillAppear

/-- What an action does at a device, `none` when it cannot happen. -/
def perform (w : World ι) (c : ι) : ClientAction → Option (Except Trap (World ι))
  | .feed a => (w.input c a).bind fun a' => ((w.app c).perform a').map (Except.map (w.setApp c))
  | .tappedInterested key => (w.app c).detail.bind fun d =>
      if w.FreshKey key ∧ d.interestedButtonEnabled then
        some (((w.app c).tappedInterested d key).map fun r =>
          ({ w with keys := key :: w.keys }.setApp c r.2).issue c r.1)
      else none
  | .newPostWithImage submission =>
      some ((MDBSocials.newPostWithImage (w.app c).currentUser submission).map fun u =>
        w.modify c fun client => { client with uploads := client.uploads ++ [u] })
  | .pictureStored i => (w.clients c).uploads[i]?.map fun u => .ok <|
      { w with storage := Function.update w.storage u.imageRef (some u.data) }.modify c
        fun client => { client with
          uploads := client.uploads.eraseIdx i
          uploaded := client.uploaded ++ [u] }
  | .uploadFails i => (w.clients c).uploads[i]?.map fun _ => .ok <|
      w.modify c fun client => { client with uploads := client.uploads.eraseIdx i }
  | .uploadReplyLost i => (w.clients c).uploaded[i]?.map fun _ => .ok <|
      w.modify c fun client => { client with uploaded := client.uploaded.eraseIdx i }
  | .uploadSucceeds i key =>
      if w.FreshKey key then (w.clients c).uploaded[i]?.map fun u =>
        (u.succeeded (some (Platform.downloadURL u.imageRef)) (w.app c).currentUser key).map
          fun write =>
            ({ w with keys := key :: w.keys, created := (u, write) :: w.created }.modify c
              fun client => { client with uploaded := client.uploaded.eraseIdx i }).issue c write
      else none
  | .uploadLacksURL i => (w.clients c).uploaded[i]?.map fun u =>
      -- the completion traps before it makes a key
      (u.succeeded none (w.app c).currentUser "").map fun _ => w
  | .signUp user => some <| .ok <|
      w.modify c fun client => { client with signUps := client.signUps ++ [user] }
  | .accountCreated i uid =>
      if uid ∈ w.accounts then none else (w.clients c).signUps[i]?.map fun user => .ok <|
        { w with accounts := uid :: w.accounts }.modify c fun client => { client with
          app := client.app.userCreated uid
          signUps := client.signUps.eraseIdx i
          signedUp := client.signedUp ++ [user] }
  | .signUpFails i => (w.clients c).signUps[i]?.map fun _ => .ok <|
      w.modify c fun client => { client with signUps := client.signUps.eraseIdx i }
  | .signUpSucceeds i => (w.clients c).signedUp[i]?.map fun user =>
      (createNewUser (w.app c).currentUser user.name user.username user.email).map fun write =>
        (w.modify c fun client =>
          { client with signedUp := client.signedUp.eraseIdx i }).issue c write
  | .arrive => (w.db.arrive c).map fun db => .ok { w with db }
  | .reject => (w.db.reject c).map fun db => .ok ({ w with db }.refresh c)
  | .sync n => (w.db.sync c n).map fun db => .ok ({ w with db }.refresh c)
  | .terminate => some (.ok (w.terminate c))

/-- A handler of a device traps, which ends the process. -/
def trapped (w : World ι) (c : ι) (a : ClientAction) (trap : Trap) : World ι :=
  { w with traps := ((c, a), trap) :: w.traps }.terminate c

/-- The state after an action of a device. -/
def step (w : World ι) (a : ι × ClientAction) : Option (World ι) :=
  (w.perform a.1 a.2).map fun
    | .ok w' => w'
    | .error trap => w.trapped a.1 a.2 trap

/-- The runs of the whole system. -/
def machine : Machine (World ι) (ι × ClientAction) where
  step := step

/-! ### Everything a step can do -/

/-- The steps of a device, one constructor for each kind. -/
inductive Step (w : World ι) (c : ι) : ClientAction → World ι → Prop
  | feed {a : FeedAction} {a' : Action} {app : App} (hinput : w.input c a = some a')
      (happ : (w.app c).step a' = some app) : Step w c (.feed a) (w.setApp c app)
  | tappedInterested {key : Key} {d : DetailViewController} {write : Write} {app : App}
      (hkey : w.FreshKey key) (hd : (w.app c).detail = some d)
      (henabled : d.interestedButtonEnabled = true)
      (happ : (w.app c).tappedInterested d key = .ok (write, app)) :
      Step w c (.tappedInterested key)
        (({ w with keys := key :: w.keys }.setApp c app).issue c write)
  | newPostWithImage {submission : Submission} {u : Upload}
      (hu : MDBSocials.newPostWithImage (w.app c).currentUser submission = .ok u) :
      Step w c (.newPostWithImage submission)
        (w.modify c fun client => { client with uploads := client.uploads ++ [u] })
  | pictureStored {i : ℕ} {u : Upload} (hu : (w.clients c).uploads[i]? = some u) :
      Step w c (.pictureStored i)
        ({ w with storage := Function.update w.storage u.imageRef (some u.data) }.modify c
          fun client => { client with
            uploads := client.uploads.eraseIdx i
            uploaded := client.uploaded ++ [u] })
  | uploadFails {i : ℕ} : Step w c (.uploadFails i)
      (w.modify c fun client => { client with uploads := client.uploads.eraseIdx i })
  | uploadReplyLost {i : ℕ} : Step w c (.uploadReplyLost i)
      (w.modify c fun client => { client with uploaded := client.uploaded.eraseIdx i })
  | uploadSucceeds {i : ℕ} {key : Key} {u : Upload} {write : Write} (hkey : w.FreshKey key)
      (hu : (w.clients c).uploaded[i]? = some u)
      (hwrite : u.succeeded (some (Platform.downloadURL u.imageRef)) (w.app c).currentUser key =
        .ok write) :
      Step w c (.uploadSucceeds i key)
        (({ w with keys := key :: w.keys, created := (u, write) :: w.created }.modify c
          fun client => { client with uploaded := client.uploaded.eraseIdx i }).issue c write)
  | signUp {user : NewUser} : Step w c (.signUp user)
      (w.modify c fun client => { client with signUps := client.signUps ++ [user] })
  | accountCreated {i : ℕ} {uid : Uid} {user : NewUser} (huid : uid ∉ w.accounts) :
      Step w c (.accountCreated i uid)
        ({ w with accounts := uid :: w.accounts }.modify c fun client => { client with
          app := client.app.userCreated uid
          signUps := client.signUps.eraseIdx i
          signedUp := client.signedUp ++ [user] })
  | signUpFails {i : ℕ} : Step w c (.signUpFails i)
      (w.modify c fun client => { client with signUps := client.signUps.eraseIdx i })
  | signUpSucceeds {i : ℕ} {user : NewUser} {uid : Uid}
      (hu : (w.clients c).signedUp[i]? = some user)
      (huid : (w.app c).currentUser = some uid) :
      Step w c (.signUpSucceeds i)
        ((w.modify c fun client =>
          { client with signedUp := client.signedUp.eraseIdx i }).issue c
            (.createNewUser uid user))
  | arrive {db : Replica ι Write} (hdb : w.db.arrive c = some db) :
      Step w c .arrive { w with db }
  | reject {db : Replica ι Write} (hdb : w.db.reject c = some db) :
      Step w c .reject ({ w with db }.refresh c)
  | sync {n : ℕ} {db : Replica ι Write} (hdb : w.db.sync c n = some db) :
      Step w c (.sync n) ({ w with db }.refresh c)
  | terminate : Step w c .terminate (w.terminate c)
  | trapped {a : ClientAction} {trap : Trap} (htrap : w.perform c a = some (.error trap)) :
      Step w c a (w.trapped c a trap)

/-- **Inversion**: a step is one of these. -/
theorem step_cases {w w' : World ι} {c : ι} {a : ClientAction}
    (h : w.step (c, a) = some w') : Step w c a w' := by
  obtain ⟨outcome, hperform, h⟩ := Option.map_eq_some_iff.mp h
  cases outcome with
  | error trap => exact h ▸ .trapped hperform
  | ok w'' =>
      obtain rfl : w'' = w' := h
      cases a with
      | feed a =>
          obtain ⟨a', hinput, hp⟩ := Option.bind_eq_some_iff.mp hperform
          obtain ⟨outcome, happ, hok⟩ := Option.map_eq_some_iff.mp hp
          obtain ⟨app, rfl, rfl⟩ := map_eq_ok.mp hok
          exact .feed hinput (App.step_eq_some.mpr happ)
      | tappedInterested key =>
          obtain ⟨d, hd, hp⟩ := Option.bind_eq_some_iff.mp hperform
          obtain ⟨⟨hkey, henabled⟩, hp⟩ := Option.ite_none_right_eq_some.mp hp
          obtain ⟨⟨write, app⟩, happ, rfl⟩ := map_eq_ok.mp (Option.some.inj hp)
          exact .tappedInterested hkey hd henabled happ
      | newPostWithImage submission =>
          obtain ⟨u, hu, rfl⟩ := map_eq_ok.mp (Option.some.inj hperform)
          exact .newPostWithImage hu
      | pictureStored i =>
          obtain ⟨u, hu, hp⟩ := Option.map_eq_some_iff.mp hperform
          exact Except.ok.inj hp ▸ .pictureStored hu
      | uploadFails i =>
          obtain ⟨u, hu, hp⟩ := Option.map_eq_some_iff.mp hperform
          exact Except.ok.inj hp ▸ .uploadFails
      | uploadReplyLost i =>
          obtain ⟨u, hu, hp⟩ := Option.map_eq_some_iff.mp hperform
          exact Except.ok.inj hp ▸ .uploadReplyLost
      | uploadSucceeds i key =>
          obtain ⟨hkey, hp⟩ := Option.ite_none_right_eq_some.mp hperform
          obtain ⟨u, hu, hp⟩ := Option.map_eq_some_iff.mp hp
          obtain ⟨write, hwrite, rfl⟩ := map_eq_ok.mp hp
          exact .uploadSucceeds hkey hu hwrite
      | uploadLacksURL i =>
          obtain ⟨u, hu, hp⟩ := Option.map_eq_some_iff.mp hperform
          cases hp
      | signUp user => exact Except.ok.inj (Option.some.inj hperform) ▸ .signUp
      | accountCreated i uid =>
          obtain ⟨huid, hp⟩ := Option.ite_none_left_eq_some.mp hperform
          obtain ⟨user, hu, hp⟩ := Option.map_eq_some_iff.mp hp
          exact Except.ok.inj hp ▸ .accountCreated huid
      | signUpFails i =>
          obtain ⟨u, hu, hp⟩ := Option.map_eq_some_iff.mp hperform
          exact Except.ok.inj hp ▸ .signUpFails
      | signUpSucceeds i =>
          obtain ⟨user, hu, hp⟩ := Option.map_eq_some_iff.mp hperform
          obtain ⟨write, hwrite, rfl⟩ := map_eq_ok.mp hp
          obtain ⟨uid, huid, hwrite⟩ := bind_eq_ok.mp hwrite
          obtain rfl := Except.ok.inj hwrite
          exact .signUpSucceeds hu (forceUnwrap_eq_ok.mp huid)
      | arrive =>
          obtain ⟨db, hdb, hp⟩ := Option.map_eq_some_iff.mp hperform
          exact Except.ok.inj hp ▸ .arrive hdb
      | reject =>
          obtain ⟨db, hdb, hp⟩ := Option.map_eq_some_iff.mp hperform
          exact Except.ok.inj hp ▸ .reject hdb
      | sync n =>
          obtain ⟨db, hdb, hp⟩ := Option.map_eq_some_iff.mp hperform
          exact Except.ok.inj hp ▸ .sync hdb
      | terminate => exact Except.ok.inj (Option.some.inj hperform) ▸ .terminate

/-! ### Frames -/

@[simp] theorem clients_modify_of_ne (w : World ι) {c d : ι} (f : Client → Client)
    (hd : d ≠ c) : (w.modify c f).clients d = w.clients d := by
  simp [modify, hd]

@[simp] theorem clients_modify_self (w : World ι) (c : ι) (f : Client → Client) :
    (w.modify c f).clients c = f (w.clients c) := by
  simp [modify]

@[simp] theorem app_modify_self (w : World ι) (c : ι) (f : Client → Client) :
    (w.modify c f).app c = (f (w.clients c)).app := by
  simp [app]

@[simp] theorem app_refresh_self (w : World ι) (c : ι) :
    (w.refresh c).app c = (w.app c).viewChanged (w.localView c) := by
  simp [refresh, setApp]

/-- The database after a step. -/
inductive DbStep (w : World ι) (c : ι) : ClientAction → Replica ι Write → Prop
  | unchanged {a : ClientAction} : DbStep w c a w.db
  | tappedInterested {key postId : Key} {uid : Uid} {d : DetailViewController}
      (hkey : w.FreshKey key) (hd : (w.app c).detail = some d)
      (hid : ((w.app c).objects d.post).id = some postId)
      (huid : (w.app c).currentUser = some uid) :
      DbStep w c (.tappedInterested key) (w.db.issue c (.updateInterested postId key uid))
  | uploadSucceeds {i : ℕ} {key : Key} {u : Upload} {uid : Uid} (hkey : w.FreshKey key)
      (hu : (w.clients c).uploaded[i]? = some u)
      (huid : (w.app c).currentUser = some uid) :
      DbStep w c (.uploadSucceeds i key) (w.db.issue c (.newPost key (u.post uid)))
  | signUpSucceeds {i : ℕ} {user : NewUser} {uid : Uid}
      (hu : (w.clients c).signedUp[i]? = some user)
      (huid : (w.app c).currentUser = some uid) :
      DbStep w c (.signUpSucceeds i) (w.db.issue c (.createNewUser uid user))
  | arrive {db : Replica ι Write} (h : w.db.arrive c = some db) : DbStep w c .arrive db
  | reject {db : Replica ι Write} (h : w.db.reject c = some db) : DbStep w c .reject db
  | sync {n : ℕ} {db : Replica ι Write} (h : w.db.sync c n = some db) :
      DbStep w c (.sync n) db
  | crash {a : ClientAction} : DbStep w c a (w.db.crash c)

variable {w w' : World ι} {c d : ι} {a : ClientAction}

theorem Step.db (h : Step w c a w') : DbStep w c a w'.db := by
  cases h with
  | tappedInterested hkey hd henabled happ =>
      obtain ⟨postId, uid, -, hid, huid, rfl, -⟩ := App.tappedInterested_eq_ok happ
      exact .tappedInterested hkey hd hid huid
  | uploadSucceeds hkey hu hwrite =>
      obtain ⟨uid, huid, rfl⟩ := Upload.succeeded_eq_ok.mp hwrite
      exact .uploadSucceeds hkey hu huid
  | signUpSucceeds hu huid => exact .signUpSucceeds hu huid
  | arrive hdb => exact .arrive hdb
  | reject hdb => exact .reject hdb
  | sync hdb => exact .sync hdb
  | terminate => exact .crash
  | trapped => exact .crash
  | _ => exact .unchanged

/-- A handler that has trapped did so before, or in the step. -/
theorem Step.mem_traps {b : ClientAction} {trap : Trap} (h : Step w c a w')
    (hmem : ((d, b), trap) ∈ w'.traps) : ((d, b), trap) ∈ w.traps ∨
      (d = c ∧ b = a) ∧ w.perform c a = some (.error trap) := by
  cases h with
  | trapped htrap =>
      rcases List.mem_cons.mp hmem with heq | hold
      · obtain ⟨hhandler, rfl⟩ := Prod.mk.inj heq
        exact Or.inr ⟨Prod.mk.inj hhandler, htrap⟩
      · exact Or.inl hold
  | _ => exact Or.inl hmem

/-- A trap in the feed is one of the application. -/
theorem feed_eq_error {b : FeedAction} {trap : Trap} :
    w.perform c (.feed b) = some (.error trap) ↔
      ∃ a', w.input c b = some a' ∧ (w.app c).perform a' = some (.error trap) := by
  simp only [perform, Option.bind_eq_some_iff, Option.map_eq_some_iff]
  refine exists_congr fun a' => and_congr_right fun _ => ?_
  constructor
  · rintro ⟨outcome, happ, hmap⟩
    cases outcome with
    | error trap' => exact Except.error.inj hmap ▸ happ
    | ok app => cases hmap
  · exact fun happ => ⟨_, happ, rfl⟩

/-- A reply to a sign-in request never traps. -/
theorem step_signInReply {uid : Uid} {succeeded : Bool}
    (h : w.step (c, .feed (.signInReply uid succeeded)) = some w') :
    w' = w.setApp c ((w.app c).signInReply uid succeeded) := by
  obtain ⟨outcome, hperform, rfl⟩ := Option.map_eq_some_iff.mp h
  obtain ⟨a, hinput, houtcome⟩ := Option.bind_eq_some_iff.mp hperform
  obtain ⟨-, hinput⟩ := Option.ite_none_right_eq_some.mp hinput
  obtain rfl := Option.some.inj hinput
  obtain ⟨result, hresult, rfl⟩ := Option.map_eq_some_iff.mp houtcome
  obtain ⟨-, hresult⟩ := Option.ite_none_right_eq_some.mp hresult
  obtain rfl := Option.some.inj hresult
  rfl

/-- An account is made for a sign-up on its way. -/
theorem step_accountCreated {i : ℕ} {uid : Uid} (h : w.step (c, .accountCreated i uid) = some w') :
    uid ∉ w.accounts ∧ ∃ user, (w.clients c).signUps[i]? = some user ∧
      w' = { w with accounts := uid :: w.accounts }.modify c fun client => { client with
        app := client.app.userCreated uid
        signUps := client.signUps.eraseIdx i
        signedUp := client.signedUp ++ [user] } := by
  obtain ⟨outcome, hperform, rfl⟩ := Option.map_eq_some_iff.mp h
  obtain ⟨huid, hperform⟩ := Option.ite_none_left_eq_some.mp hperform
  obtain ⟨user, huser, rfl⟩ := Option.map_eq_some_iff.mp hperform
  exact ⟨huid, user, huser, rfl⟩

/-- What holds of all events that a step can be to the database, one hypothesis for each
kind. -/
theorem DbStep.event_of {P : Replica.Event ι Write → Prop} {db : Replica ι Write}
    (h : DbStep w c a db)
    (interest : ∀ (key postId : Key) (uid : Uid) (d : DetailViewController),
      a = .tappedInterested key → w.FreshKey key → (w.app c).detail = some d →
      ((w.app c).objects d.post).id = some postId → (w.app c).currentUser = some uid →
      P (.issue c (.updateInterested postId key uid)))
    (post : ∀ (i : ℕ) (key : Key) (u : Upload) (uid : Uid), a = .uploadSucceeds i key →
      (w.app c).currentUser = some uid → P (.issue c (.newPost key (u.post uid))))
    (user : ∀ uid newUser, P (.issue c (.createNewUser uid newUser)))
    (arrive : P (.arrive c)) (reject : a = .reject → P (.reject c))
    (sync : ∀ n, P (.sync c n)) (crash : P (.crash c)) :
    db = w.db ∨ ∃ e, w.db.step e = some db ∧ P e := by
  cases h with
  | unchanged => exact Or.inl rfl
  | tappedInterested hkey hd hid huid =>
      exact Or.inr ⟨.issue c _, rfl, interest _ _ _ _ rfl hkey hd hid huid⟩
  | uploadSucceeds hkey hu huid => exact Or.inr ⟨.issue c _, rfl, post _ _ _ _ rfl huid⟩
  | signUpSucceeds => exact Or.inr ⟨.issue c _, rfl, user _ _⟩
  | arrive h => exact Or.inr ⟨.arrive c, h, arrive⟩
  | reject h => exact Or.inr ⟨.reject c, h, reject rfl⟩
  | sync h => exact Or.inr ⟨.sync c _, h, sync _⟩
  | crash => exact Or.inr ⟨.crash c, rfl, crash⟩

/-- The writes that a step issues. -/
inductive Issues (w : World ι) (c : ι) : ClientAction → Write → Prop
  | tappedInterested {key postId : Key} {uid : Uid} (hkey : w.FreshKey key)
      (huid : (w.app c).currentUser = some uid) :
      Issues w c (.tappedInterested key) (.updateInterested postId key uid)
  | uploadSucceeds {i : ℕ} {key : Key} {u : Upload} {uid : Uid}
      (hu : (w.clients c).uploaded[i]? = some u) (huid : (w.app c).currentUser = some uid) :
      Issues w c (.uploadSucceeds i key) (.newPost key (u.post uid))
  | signUpSucceeds {i : ℕ} {user : NewUser} {uid : Uid}
      (hu : (w.clients c).signedUp[i]? = some user) (huid : (w.app c).currentUser = some uid) :
      Issues w c (.signUpSucceeds i) (.createNewUser uid user)

/-- What is in the log or in a queue after a step was there before, or the step issued it. -/
theorem DbStep.issued {db : Replica ι Write} (h : DbStep w c a db) {x : Write}
    (hx : db.Issued x) : w.db.Issued x ∨ Issues w c a x := by
  have hissue : ∀ {y : Write}, Issues w c a y → (w.db.issue c y).Issued x →
      w.db.Issued x ∨ Issues w c a x := by
    intro y hy hx
    rcases hx.of_step (e := .issue c y) rfl with hx | ⟨d, hd⟩
    · exact Or.inl hx
    · obtain ⟨-, rfl⟩ := Replica.Event.issue.inj hd
      exact Or.inr hy
  cases h with
  | unchanged => exact Or.inl hx
  | tappedInterested hkey hd hid huid => exact hissue (.tappedInterested hkey huid) hx
  | uploadSucceeds hkey hu huid => exact hissue (.uploadSucceeds hu huid) hx
  | signUpSucceeds hu huid => exact hissue (.signUpSucceeds hu huid) hx
  | arrive hdb => exact Or.inl ((hx.of_step (e := .arrive c) hdb).resolve_right (by simp))
  | reject hdb => exact Or.inl ((hx.of_step (e := .reject c) hdb).resolve_right (by simp))
  | sync hdb => exact Or.inl ((hx.of_step (e := .sync c _) hdb).resolve_right (by simp))
  | crash => exact Or.inl ((hx.of_step (e := .crash c) rfl).resolve_right (by simp))

theorem DbStep.viewSeq_of_ne {db : Replica ι Write} (h : DbStep w c a db) (hd : d ≠ c) :
    db.viewSeq d = w.db.viewSeq d := by
  cases h with
  | unchanged => rfl
  | tappedInterested | uploadSucceeds | signUpSucceeds =>
      exact Replica.viewSeq_issue_of_ne _ _ hd
  | arrive h => exact Replica.viewSeq_arrive h d
  | reject h => exact Replica.viewSeq_reject_of_ne h hd
  | sync h => exact Replica.viewSeq_sync_of_ne h hd
  | crash => exact Replica.viewSeq_crash_of_ne _ hd

/-- A step of one device is no step of another. -/
theorem Step.clients_of_ne (h : Step w c a w') (hd : d ≠ c) : w'.clients d = w.clients d := by
  cases h with
  | arrive hdb => rfl
  | _ => simp [World.issue, World.refresh, setApp, World.terminate, World.trapped, hd]

theorem Step.localView_of_ne (h : Step w c a w') (hd : d ≠ c) :
    w'.localView d = w.localView d := by
  rw [localView, localView, h.db.viewSeq_of_ne hd]

/-- A launch of the application at a step. -/
def Launches (w : World ι) (c : ι) (w' : World ι) : Prop :=
  w'.db = w.db.crash c ∧ ∃ u, w'.app c = .launch u (w'.localView c)

/-- A run of the application at a step. The views it is shown are the device's own, and
what the view held before it still holds, but for a refused write. -/
structure Runs (w : World ι) (c : ι) (a : ClientAction) (w' : World ι) : Prop where
  run : ∃ as, App.machine.run (w.app c) as = some (w'.app c) ∧
    ∀ view, Action.viewChanged view ∈ as → view = w'.localView c
  grows : (∃ db, a = .reject ∧ w.db.reject c = some db) ∨
    w.db.viewSeq c ⊆ w'.db.viewSeq c

theorem input_ne_viewChanged {b : FeedAction} {a' : Action} (h : w.input c b = some a')
    (view : Node) : a' ≠ .viewChanged view := by
  rintro rfl
  cases b with
  | signInReply uid succeeded =>
      obtain ⟨-, h⟩ := Option.ite_none_right_eq_some.mp h
      cases h
  | _ => cases h

/-- Only the reply to a sign-in signs a user in here, and it needs an account. -/
theorem input_signsIn {b : FeedAction} {a' : Action} {uid : Uid} (h : w.input c b = some a')
    (ha' : a' = .signInReply uid true ∨ a' = .userCreated uid) :
    b = .signInReply uid true ∧ uid ∈ w.accounts := by
  cases b with
  | signInReply uid' succeeded =>
      obtain ⟨haccount, h⟩ := Option.ite_none_right_eq_some.mp h
      obtain rfl := Option.some.inj h
      rcases ha' with ha' | ha'
      · obtain ⟨rfl, rfl⟩ := Action.signInReply.inj ha'
        exact ⟨rfl, haccount rfl⟩
      · cases ha'
  | _ =>
      obtain rfl := Option.some.inj h
      rcases ha' with ha' | ha' <;> cases ha'

theorem run_refresh (w₁ : World ι) (as : List Action)
    (hrun : App.machine.run (w.app c) as = some (w₁.app c))
    (has : ∀ view, Action.viewChanged view ∉ as) :
    ∃ as, App.machine.run (w.app c) as = some ((w₁.refresh c).app c) ∧
      ∀ view, Action.viewChanged view ∈ as → view = (w₁.refresh c).localView c := by
  refine ⟨as ++ [.viewChanged (w₁.localView c)], ?_, fun view hview => ?_⟩
  · rw [app_refresh_self]
    exact Machine.run_snoc_eq_some.mpr ⟨_, hrun, rfl⟩
  · rcases List.mem_append.mp hview with hview | hview
    · exact absurd hview (has view)
    · exact (Action.viewChanged.inj (List.mem_singleton.mp hview))

theorem grows_issue (w₁ : World ι) (hdb : w₁.db = w.db) (write : Write) :
    w.db.viewSeq c ⊆ (w₁.issue c write).db.viewSeq c := by
  have hissue : (w₁.issue c write).db = w.db.issue c write := by rw [← hdb]; rfl
  rw [hissue, Replica.viewSeq_issue_self]
  exact List.subset_append_left _ _

/-- **A device's step** launches its application or runs it. -/
theorem Step.app (h : Step w c a w') : Launches w c w' ∨ Runs w c a w' := by
  cases h with
  | @feed b a' app hinput happ =>
      refine Or.inr ⟨⟨[a'], ?_, fun view hview => ?_⟩, Or.inr (List.Subset.refl _)⟩
      · exact Machine.run_cons_eq_some.mpr ⟨_, happ, by simp [setApp]⟩
      · exact absurd (List.mem_singleton.mp hview).symm (input_ne_viewChanged hinput view)
  | @tappedInterested key d write app hkey hd henabled happ =>
      have hstep := App.step_of_tap hd henabled happ
      refine Or.inr ⟨run_refresh _ [.tappedInterested key] ?_ (by simp),
        Or.inr (grows_issue _ rfl write)⟩
      exact Machine.run_cons_eq_some.mpr ⟨_, hstep, by simp [setApp, World.app]⟩
  | uploadSucceeds hkey hu hwrite =>
      exact Or.inr ⟨run_refresh _ [] (by simp [World.app]) (by simp),
        Or.inr (grows_issue _ rfl _)⟩
  | signUpSucceeds hu huid =>
      exact Or.inr ⟨run_refresh _ [] (by simp [World.app]) (by simp),
        Or.inr (grows_issue _ rfl _)⟩
  | accountCreated huid =>
      exact Or.inr ⟨⟨[.userCreated _],
        Machine.run_cons_eq_some.mpr ⟨_, rfl, by simp; rfl⟩, by simp⟩,
        Or.inr (List.Subset.refl _)⟩
  | arrive hdb =>
      exact Or.inr ⟨⟨[], rfl, by simp⟩, Or.inr (by rw [Replica.viewSeq_arrive hdb]; simp)⟩
  | reject hdb =>
      exact Or.inr ⟨run_refresh _ [] rfl (by simp), Or.inl ⟨_, rfl, hdb⟩⟩
  | sync hdb =>
      exact Or.inr ⟨run_refresh _ [] rfl (by simp),
        Or.inr (Replica.viewSeq_subset_sync hdb)⟩
  | terminate => exact Or.inl ⟨rfl, _, by simp [World.terminate]; rfl⟩
  | trapped => exact Or.inl ⟨rfl, _, by simp [World.trapped, World.terminate]; rfl⟩
  | _ => exact Or.inr ⟨⟨[], by simp [World.app], by simp⟩, Or.inr (List.Subset.refl _)⟩

/-! ### The views -/

/-- Each application is shown the view of its device. -/
def Coherent (w : World ι) : Prop := ∀ c, (w.app c).view = w.localView c

theorem coherent_initial : Coherent (initial : World ι) := fun _ => rfl

theorem Step.coherent (h : Step w c a w') (hw : Coherent w) : Coherent w' := by
  intro d
  by_cases hd : d = c
  · subst hd
    have same : ∀ w₁ : World ι, w₁.db = w.db → (w₁.app d).view = (w.app d).view →
        (w₁.app d).view = w₁.localView d := by
      intro w₁ hdb hview
      rw [hview, localView, hdb]
      exact hw d
    cases h with
    | @feed b a' app hinput happ =>
        have hview : app.view = (w.app d).view :=
          App.step_view happ (input_ne_viewChanged hinput)
        exact same _ rfl (by simpa [setApp] using hview)
    | arrive hdb =>
        rw [localView, Replica.viewSeq_arrive hdb]
        exact hw d
    | accountCreated huid => exact same _ rfl (by simp [World.app, App.userCreated])
    | tappedInterested | uploadSucceeds | signUpSucceeds | reject | sync =>
        simp only [World.issue, app_refresh_self]
        rfl
    | terminate | trapped =>
        simp only [World.trapped, World.terminate, app_modify_self]
        rfl
    | _ => exact same _ rfl (by simp [World.app])
  · rw [h.localView_of_ne hd, World.app, h.clients_of_ne hd]
    exact hw d

/-! ### What the world refines -/

/-- What a step is to the database. -/
def dbEvent (w : World ι) (a : ι × ClientAction) : Option (Replica.Event ι Write) :=
  match w.perform a.1 a.2, a.2 with
  | some (.error _), _ => some (.crash a.1)
  | some (.ok w'), .tappedInterested _
  | some (.ok w'), .uploadSucceeds _ _
  | some (.ok w'), .signUpSucceeds _ => (w'.db.pending a.1).getLast?.map (.issue a.1)
  | some (.ok _), .arrive => some (.arrive a.1)
  | some (.ok _), .reject => some (.reject a.1)
  | some (.ok _), .sync n => some (.sync a.1 n)
  | some (.ok _), .terminate => some (.crash a.1)
  | _, _ => none

/-- What the steps of a run are to the database. -/
def dbEvents : World ι → List (ι × ClientAction) → List (Replica.Event ι Write)
  | _, [] => []
  | w, a :: as => (w.dbEvent a).toList ++ ((w.step a).map fun w' => dbEvents w' as).getD []

/-- A step leaves the database alone or is an event of it. A write is issued with a fresh
key, if with one at all. -/
theorem step_dbEvent (h : w.step (c, a) = some w') :
    (w.dbEvent (c, a) = none ∧ w'.db = w.db) ∨
    ∃ e, w.dbEvent (c, a) = some e ∧ w.db.step e = some w'.db ∧
      ∀ d x, e = .issue d x → ∀ key, x.autoKey = some key → w.FreshKey key ∧ key ∈ w'.keys := by
  obtain ⟨outcome, hperform, hout⟩ := Option.map_eq_some_iff.mp h
  cases outcome with
  | error trap =>
      obtain rfl := hout
      exact Or.inr ⟨.crash c, by simp [dbEvent, hperform], rfl, by rintro _ _ ⟨⟩⟩
  | ok w'' =>
      obtain rfl : w'' = w' := hout
      have issue : ∀ (x : Write), (w''.db = w.db.issue c x) →
          (∀ key, x.autoKey = some key → w.FreshKey key ∧ key ∈ w''.keys) →
          ∃ e, ((w''.db.pending c).getLast?.map (.issue c)) = some e ∧
            w.db.step e = some w''.db ∧ ∀ d x, e = .issue d x → ∀ key, x.autoKey = some key →
              w.FreshKey key ∧ key ∈ w''.keys := by
        intro x hdb hx
        refine ⟨.issue c x, by simp [hdb, Replica.issue], congrArg some hdb.symm, ?_⟩
        rintro d y heq
        obtain ⟨-, rfl⟩ := Replica.Event.issue.inj heq
        exact hx
      cases step_cases h with
      | trapped htrap => cases hperform.symm.trans htrap
      | @tappedInterested key d write app hkey hd henabled happ =>
          obtain ⟨postId, userId, -, -, -, rfl, -⟩ := App.tappedInterested_eq_ok happ
          simp only [dbEvent, hperform]
          refine Or.inr (issue _ rfl fun k hk => ?_)
          obtain rfl := Option.some.inj hk
          exact ⟨hkey, List.mem_cons_self⟩
      | @uploadSucceeds i key u write hkey hu hwrite =>
          obtain ⟨uid, -, rfl⟩ := Upload.succeeded_eq_ok.mp hwrite
          simp only [dbEvent, hperform]
          refine Or.inr (issue _ rfl fun k hk => ?_)
          obtain rfl := Option.some.inj hk
          exact ⟨hkey, List.mem_cons_self⟩
      | signUpSucceeds =>
          simp only [dbEvent, hperform]
          exact Or.inr (issue _ rfl (by rintro _ ⟨⟩))
      | arrive hdb =>
          exact Or.inr ⟨.arrive c, by simp only [dbEvent, hperform], hdb, by rintro _ _ ⟨⟩⟩
      | reject hdb =>
          exact Or.inr ⟨.reject c, by simp only [dbEvent, hperform], hdb, by rintro _ _ ⟨⟩⟩
      | sync hdb =>
          exact Or.inr ⟨.sync c _, by simp only [dbEvent, hperform], hdb, by rintro _ _ ⟨⟩⟩
      | terminate =>
          exact Or.inr ⟨.crash c, by simp only [dbEvent, hperform], rfl, by rintro _ _ ⟨⟩⟩
      | _ => exact Or.inl ⟨by simp only [dbEvent, hperform], rfl⟩

theorem dbEvents_cons (h : w.step (c, a) = some w') (as : List (ι × ClientAction)) :
    w.dbEvents ((c, a) :: as) = (w.dbEvent (c, a)).toList ++ w'.dbEvents as := by
  rw [dbEvents, h]
  rfl

/-- **A run of the system** is a run of the replicated log. -/
theorem run_dbEvents {as : List (ι × ClientAction)} (h : machine.run w as = some w') :
    Replica.machine.run w.db (w.dbEvents as) = some w'.db := by
  induction as generalizing w with
  | nil =>
      obtain rfl := Option.some.inj h
      rfl
  | cons a as ih =>
      obtain ⟨w₁, hst, hrun⟩ := Machine.run_cons_eq_some.mp h
      rw [dbEvents_cons hst]
      refine Machine.run_append_eq_some.mpr ⟨w₁.db, ?_, ih hrun⟩
      rcases step_dbEvent hst with ⟨hnone, hdb⟩ | ⟨e, he, hdb, -⟩
      · rw [hnone, hdb]
        rfl
      · rw [he]
        exact Machine.run_cons_eq_some.mpr ⟨w₁.db, hdb, rfl⟩

/-- The device is not launched again in the step. -/
def StaysUp (c : ι) (w : World ι) (a : ι × ClientAction) : Prop :=
  a.1 = c → ∀ w', w.step a = some w' → ¬ Launches w c w'

theorem simulates_app (c : ι) :
    machine.Simulates App.machine (StaysUp c) (fun w : World ι => w.app c) := by
  rintro w ⟨d, a⟩ w' hG h
  by_cases hd : c = d
  · subst hd
    rcases (step_cases h).app with hlaunch | ⟨⟨as, has, -⟩, -⟩
    · exact absurd hlaunch (hG rfl w' h)
    · exact ⟨as, has⟩
  · have hsame : w'.app c = w.app c := by
      rw [World.app, (step_cases h).clients_of_ne hd]
      rfl
    exact ⟨[], congrArg some hsame.symm⟩

/-- **A device between two launches** runs the application. -/
theorem run_app {as : List (ι × ClientAction)} (h : machine.run w as = some w')
    (hup : machine.Guarded (StaysUp c) w as) :
    ∃ bs, App.machine.run (w.app c) bs = some (w'.app c) :=
  (simulates_app c).run hup h

end World

/-! ### Keys -/

namespace World

variable [Platform] {ι : Type}

/-- The keys of all writes are different, and were made by `childByAutoId`. -/
structure KeysInv (w : World ι) : Prop where
  made : ∀ x, w.db.Issued x → ∀ key, x.autoKey = some key → key ∈ w.keys
  different : Replica.Distinct Write.autoKey w.db

theorem keysInv_initial : KeysInv (initial : World ι) where
  made x hx := by rcases hx with hx | ⟨c, hx⟩ <;> cases hx
  different := Replica.distinct_empty

variable [DecidableEq ι] {w w' : World ι} {c : ι} {a : ClientAction}

theorem Step.keys_subset (h : Step w c a w') : w.keys ⊆ w'.keys := by
  cases h with
  | tappedInterested | uploadSucceeds => exact List.subset_cons_self _ _
  | _ => exact List.Subset.refl _

/-- **Keys stay different** in every step, whatever arrives or is lost. -/
theorem KeysInv.step (h : KeysInv w) (hst : w.step (c, a) = some w') : KeysInv w' := by
  have hkeys := (step_cases hst).keys_subset
  rcases step_dbEvent hst with ⟨-, hsame⟩ | ⟨e, -, he, hfresh⟩
  · exact ⟨fun x hx key hkey => hkeys (h.made x (hsame ▸ hx) key hkey), hsame ▸ h.different⟩
  · refine ⟨fun x hx key hkey => ?_, h.different.step ?_ he⟩
    · rcases hx.of_step he with hx | ⟨d, rfl⟩
      · exact hkeys (h.made x hx key hkey)
      · exact (hfresh d x rfl key hkey).2
    · cases e with
      | issue d x =>
          intro key hkey
          have hnew := (hfresh d x rfl key hkey).1.1
          refine ⟨fun hmem => ?_, fun b hmem => ?_⟩
          · obtain ⟨y, hy, hykey⟩ := List.mem_filterMap.mp hmem
            exact hnew (h.made y (Or.inl hy) key hykey)
          · obtain ⟨y, hy, hykey⟩ := List.mem_filterMap.mp hmem
            exact hnew (h.made y (Or.inr ⟨b, hy⟩) key hykey)
      | _ => trivial

theorem keysInv_of_run {as : List (ι × ClientAction)} (hrun : machine.run initial as = some w) :
    KeysInv w :=
  Machine.run_invariant (fun _ _ _ hw hst => hw.step hst) keysInv_initial hrun

end World

end MDBSocials
