import Mathlib.Data.Finset.Basic
import Subraum.Keys.Membership
import Subraum.Lib.FifoNet
import Subraum.Server.Authenticity
import Subraum.Server.Rooms

/-!
# Whom a client takes for a member

A connection is handed the `Roster` of its room when it joins, and from then on one frame for
everybody who joins or leaves.  `view` is what these frames add up to.  As long as no queue
overflows, the view of every connection that still takes frames is the room without itself
(`views_agree`), and so is the member map of the engine behind it.

A takeover sends a `PeerJoined` without a `PeerLeft`, and the socket that was taken over cleans up
in silence, so the views are tied to the registered handles, not to the sockets.
-/

namespace Subraum.Server

open Protocol FifoNet

/-! ## Views -/

/-- `Roster` replaces, `PeerJoined` inserts, `PeerLeft` removes. -/
def view (seen : Finset String) : ServerMsg → Finset String
  | .roster peers => (peers.map PeerInfo.userId).toFinset
  | .peerJoined userId _ => insert userId seen
  | .peerLeft userId => seen.erase userId
  | _ => seen

/-- What a message says of `v`, if anything. -/
def tells (v : String) : ServerMsg → Option Bool
  | .roster peers => some (decide (v ∈ peers.map PeerInfo.userId))
  | .peerJoined userId _ => if v = userId then some true else none
  | .peerLeft userId => if v = userId then some false else none
  | _ => none

/-- What `msgs` make of the belief `b` that `v` is a member. -/
def believes (v : String) (b : Bool) (msgs : List ServerMsg) : Bool :=
  msgs.foldl (fun b msg => (tells v msg).getD b) b

theorem mem_view (v : String) (seen : Finset String) (msg : ServerMsg) :
    v ∈ view seen msg ↔ (tells v msg).getD (decide (v ∈ seen)) = true := by
  cases msg with
  | roster peers => simp [view, tells]
  | peerJoined userId name =>
    by_cases h : v = userId <;> simp [view, tells, h]
  | peerLeft userId =>
    by_cases h : v = userId <;> simp [view, tells, h]
  | _ => simp [view, tells]

theorem mem_foldl_view (v : String) (seen : Finset String) (msgs : List ServerMsg) :
    v ∈ msgs.foldl view seen ↔ believes v (decide (v ∈ seen)) msgs = true := by
  induction msgs generalizing seen with
  | nil => simp [believes]
  | cons msg msgs ih =>
    have hview : decide (v ∈ view seen msg) = (tells v msg).getD (decide (v ∈ seen)) := by
      rw [Bool.eq_iff_iff, decide_eq_true_iff]
      exact mem_view v seen msg
    rw [List.foldl_cons, ih, hview]
    rfl

@[simp] theorem believes_append (v : String) (b : Bool) (msgs msgs' : List ServerMsg) :
    believes v b (msgs ++ msgs') = believes v (believes v b msgs) msgs' :=
  List.foldl_append

@[simp] theorem believes_cons (v : String) (b : Bool) (msg : ServerMsg) (msgs : List ServerMsg) :
    believes v b (msg :: msgs) = believes v ((tells v msg).getD b) msgs := rfl

/-- Messages that say nothing of `v`. -/
theorem believes_of_silent {v : String} {msgs : List ServerMsg}
    (h : ∀ msg ∈ msgs, tells v msg = none) (b : Bool) : believes v b msgs = b := by
  induction msgs with
  | nil => rfl
  | cons msg msgs ih =>
    rw [believes_cons, h msg List.mem_cons_self]
    exact ih fun msg' h' => h msg' (List.mem_cons_of_mem msg h')

/-- A member stays one unless a message says that it has left. -/
theorem believes_of_kept {v : String} {msgs : List ServerMsg}
    (h : ∀ msg ∈ msgs, tells v msg ≠ some false) : believes v true msgs = true := by
  induction msgs with
  | nil => rfl
  | cons msg msgs ih =>
    have hone : (tells v msg).getD true = true := by
      cases htold : tells v msg with
      | none => rfl
      | some c =>
        cases c with
        | true => rfl
        | false => exact absurd htold (h msg List.mem_cons_self)
    rw [believes_cons, hone]
    exact ih fun msg' h' => h msg' (List.mem_cons_of_mem msg h')

/-- Messages of which each says of `v` what `m` says, or nothing, and `m` is among them. -/
theorem believes_of_told {v : String} {msgs : List ServerMsg} {m : ServerMsg} (hm : m ∈ msgs)
    (h : ∀ msg ∈ msgs, tells v msg = none ∨ tells v msg = tells v m) (b : Bool) :
    believes v b msgs = (tells v m).getD b := by
  cases htold : tells v m with
  | none =>
    refine believes_of_silent (fun msg hmsg => ?_) b
    rcases h msg hmsg with hnone | hsame
    · exact hnone
    · exact hsame.trans htold
  | some c =>
    -- once it was told `c`, it stays told
    have hstay : ∀ msgs' : List ServerMsg, (∀ msg ∈ msgs', tells v msg = none ∨
        tells v msg = tells v m) → believes v c msgs' = c := by
      intro msgs' h'
      induction msgs' with
      | nil => rfl
      | cons msg msgs' ih =>
        have hrest := ih fun msg' hmem => h' msg' (List.mem_cons_of_mem msg hmem)
        rw [believes_cons]
        rcases h' msg List.mem_cons_self with hnone | hsame
        · rw [hnone, Option.getD_none, hrest]
        · rw [hsame, htold, Option.getD_some, hrest]
    obtain ⟨pre, post, rfl⟩ := List.append_of_mem hm
    rw [believes_append, believes_cons, htold, Option.getD_some, Option.getD_some]
    exact hstay post fun msg hmsg => h msg (by simp [hmsg])

theorem tells_of_not_aboutMembers {msg : ServerMsg} (h : aboutMembers msg = false) (v : String) :
    tells v msg = none := by
  cases msg <;> first | rfl | exact absurd h Bool.noConfusion

/-! ## The engine behind the connection -/

/-- What a frame is to the key plane of the engine. -/
def signalOf : ServerMsg → Option Keys.Signal
  | .roster peers => some (.roster (peers.map PeerInfo.userId))
  | .peerJoined userId _ => some (.peerJoined userId)
  | .peerLeft userId => some (.peerLeft userId)
  | .rekey _ => some .rekey
  | _ => none

/-- The signaling part of an event. -/
def signalPart : Keys.Event → Option Keys.Signal
  | .signal msg => some msg
  | _ => none

/-- A frame changes the member map as it changes the view. -/
theorem toFinset_seen {frame : ServerMsg} {msg : Keys.Signal} (h : signalOf frame = some msg)
    (e : Keys.Engine) : (e.seen msg).toFinset = view e.members.toFinset frame := by
  cases frame <;> simp only [signalOf, reduceCtorEq, Option.some.injEq] at h <;> subst h <;>
    ext v <;> simp [Keys.Engine.seen, view, and_comm]

theorem view_of_no_signal {frame : ServerMsg} (h : signalOf frame = none) (seen : Finset String) :
    view seen frame = seen := by
  cases frame <;> first | rfl | exact absurd h (by simp [signalOf])

theorem foldl_view_of_no_signal {frames : List ServerMsg} (h : frames.filterMap signalOf = [])
    (seen : Finset String) : frames.foldl view seen = seen := by
  induction frames with
  | nil => rfl
  | cons frame frames ih =>
    have hnone := List.filterMap_eq_nil_iff.mp h
    rw [List.foldl_cons, view_of_no_signal (hnone frame List.mem_cons_self)]
    exact ih (List.filterMap_eq_nil_iff.mpr fun f hf => hnone f (List.mem_cons_of_mem frame hf))

/-- The engine's member map is the view that its frames add up to, whatever else it handles between
two frames. -/
theorem members_run (e : Keys.Engine) (inputs : List (Keys.Env × Keys.Event))
    (frames : List ServerMsg)
    (h : inputs.filterMap (fun input => signalPart input.2) = frames.filterMap signalOf) :
    (StepRun.run Keys.Engine.step e inputs).members.toFinset =
      frames.foldl view e.members.toFinset := by
  induction inputs generalizing e frames with
  | nil => rw [foldl_view_of_no_signal h.symm, StepRun.run_nil]
  | cons input inputs ih =>
    obtain ⟨env, ev⟩ := input
    have hmembers : ∀ ev', signalPart ev' = none → (e.handle env ev').1.members = e.members := by
      intro ev' hev'
      cases ev' with
      | signal msg => exact absurd hev' (by simp [signalPart])
      | mesh ev' => exact e.onMesh_members env ev'
      | promote gen => rfl
    rw [StepRun.run_cons]
    cases hpart : signalPart ev with
    | none =>
      simp only [List.filterMap_cons, hpart] at h
      rw [ih (Keys.Engine.step e (env, ev)) frames h, Keys.Engine.step, hmembers ev hpart]
    | some msg =>
      -- the frame that this signal came in
      simp only [List.filterMap_cons, hpart] at h
      obtain ⟨pre, frame, post, rfl, hpre, hframe, hpost⟩ := List.filterMap_eq_cons_iff.mp h.symm
      obtain rfl : ev = .signal msg := by
        cases ev with
        | signal msg' => exact congrArg _ (Option.some.inj hpart)
        | mesh ev => exact absurd hpart (by simp [signalPart])
        | promote gen => exact absurd hpart (by simp [signalPart])
      rw [ih (Keys.Engine.step e (env, .signal msg)) post hpost.symm, List.foldl_append,
        foldl_view_of_no_signal (List.filterMap_eq_nil_iff.mpr hpre), List.foldl_cons,
        ← toFinset_seen hframe e]
      exact congrArg (fun members : List String => post.foldl view members.toFinset)
        (e.onSignal_members env msg)

/-! ## Who is told what -/

/-- Does the connection `i` see `v` in its room, apart from itself? -/
def sees (app : AppState) (room self v : String) : Bool :=
  decide (v ≠ self) && (app.registered room v).isSome

/-- What a join says, and to whom. -/
theorem enter_told {app : AppState} {tx : SocketId} {room userId name secret : String} {o : Send}
    (h : o ∈ (enter app tx room userId name secret).2) :
    (o.2 = .error "superseded" "joined from another connection" ∧
        app.registered room userId = some o.1) ∨
      (o.2 = .peerJoined userId name ∧ ∃ u, u ≠ userId ∧ app.registered room u = some o.1) ∨
      o = (tx, .roster (((app.room room).erase userId).entries.map fun e => ⟨e.1, e.2.name⟩)) ∨
      (∃ size, o.2 = .warn size warnCap) ∧ (o.1 = tx ∨ ∃ u, app.registered room u = some o.1) := by
  have hothers : ∀ e ∈ (((app.room room).erase userId).insert userId ⟨name, tx, secret⟩).entries,
      (e.1 = userId ∧ e.2.tx = tx) ∨ (e.1 ≠ userId ∧ app.registered room e.1 = some e.2.tx) := by
    intro e he
    rw [AList.entries_insert_of_notMem fun hmem => (AList.mem_erase.mp hmem).1 rfl] at he
    rcases List.mem_cons.mp he with rfl | he
    · exact Or.inl ⟨rfl, rfl⟩
    · have hne : e.1 ≠ userId := (AList.mem_erase.mp (List.mem_keys_of_mem he)).1
      have hmem := (List.kerase_sublist userId (app.room room).entries).subset he
      exact Or.inr ⟨hne, app.registered_of_mem hmem⟩
  simp only [enter, List.mem_append] at h
  rcases h with ((h | h) | h) | h
  · obtain ⟨old, hold, rfl⟩ := List.mem_map.mp h
    refine Or.inl ⟨rfl, ?_⟩
    rw [AppState.registered, Option.mem_toList.mp hold, Option.map_some]
  · obtain ⟨e, he, rfl⟩ := List.mem_map.mp h
    obtain ⟨hmem, hne⟩ := List.mem_filter.mp he
    have hne : e.1 ≠ userId := of_decide_eq_true hne
    rcases hothers e hmem with ⟨heq, -⟩ | ⟨-, hreg⟩
    · exact absurd heq hne
    · exact Or.inr (Or.inl ⟨rfl, e.1, hne, hreg⟩)
  · exact Or.inr (Or.inr (Or.inl (List.mem_singleton.mp h)))
  · refine Or.inr (Or.inr (Or.inr ?_))
    split at h
    · obtain ⟨e, he, rfl⟩ := List.mem_map.mp h
      refine ⟨⟨_, rfl⟩, ?_⟩
      rcases hothers e he with ⟨-, htx⟩ | ⟨-, hreg⟩
      · exact Or.inl htx
      · exact Or.inr ⟨e.1, hreg⟩
    · exact absurd h List.not_mem_nil

/-- Everybody else in the room hears of the newcomer. -/
theorem enter_tells {app : AppState} {room u : String} {i : SocketId}
    (h : app.registered room u = some i) {userId : String} (hne : u ≠ userId) (tx : SocketId)
    (name secret : String) :
    (i, .peerJoined userId name) ∈ (enter app tx room userId name secret).2 := by
  obtain ⟨handle, hlookup, htx⟩ := (app.registered_eq_some).mp h
  have hmem : (⟨u, handle⟩ : Sigma fun _ : String => PeerHandle) ∈
      (((app.room room).erase userId).insert userId ⟨name, tx, secret⟩).entries := by
    rw [← AList.mem_lookup_iff, AList.lookup_insert_ne hne, AList.lookup_erase_ne hne]
    exact hlookup
  simp only [enter, List.mem_append]
  refine Or.inl (Or.inl (Or.inr (List.mem_map.mpr ⟨⟨u, handle⟩, ?_, by rw [← htx]⟩)))
  exact List.mem_filter.mpr ⟨hmem, decide_eq_true hne⟩

/-- The newcomer's part of what a join says is the roster, and whatever follows it says nothing of
members. -/
theorem enter_roster {app : AppState} {tx : SocketId} (room userId name secret : String)
    (h : ∀ u, app.registered room u ≠ some tx) :
    ∃ warns, sentTo (enter app tx room userId name secret).2 tx =
      .roster (((app.room room).erase userId).entries.map fun e => ⟨e.1, e.2.name⟩) :: warns ∧
        ∀ msg ∈ warns, ∃ size, msg = .warn size warnCap := by
  have hold : sentTo (((app.room room).lookup userId).toList.map fun old =>
      ((old.tx, .error "superseded" "joined from another connection") : Send)) tx = [] := by
    refine sentTo_eq_nil fun o ho htx => h userId ?_
    obtain ⟨old, hold, rfl⟩ := List.mem_map.mp ho
    rw [AppState.registered, Option.mem_toList.mp hold, Option.map_some]
    exact congrArg some htx
  have htold : sentTo (((((app.room room).erase userId).insert userId
      ⟨name, tx, secret⟩).entries.filter fun e => e.1 ≠ userId).map fun e =>
        ((e.2.tx, .peerJoined userId name) : Send)) tx = [] := by
    refine sentTo_eq_nil fun o ho htx => ?_
    obtain ⟨e, he, rfl⟩ := List.mem_map.mp ho
    obtain ⟨hmem, hne⟩ := List.mem_filter.mp he
    rw [AList.entries_insert_of_notMem fun hmem => (AList.mem_erase.mp hmem).1 rfl] at hmem
    rcases List.mem_cons.mp hmem with rfl | hmem
    · exact absurd rfl (of_decide_eq_true hne)
    · have hreg := app.registered_of_mem
        ((List.kerase_sublist userId (app.room room).entries).subset hmem)
      exact h e.1 (hreg.trans (congrArg some htx))
  simp only [enter, sentTo_append, hold, htold, List.nil_append]
  rw [sentTo_singleton, if_pos rfl, List.singleton_append]
  refine ⟨_, rfl, fun msg hmsg => ?_⟩
  have hmem := mem_sentTo.mp hmsg
  split at hmem
  · obtain ⟨e, -, heq⟩ := List.mem_map.mp hmem
    exact ⟨_, (congrArg Prod.snd heq).symm⟩
  · exact absurd hmem List.not_mem_nil

/-- Reading a frame is answered with a refusal, if at all. -/
theorem refusal_of_read {s : Socket} {id : SocketId} {now : ℕ} {frame : Frame} {o : Send}
    (h : o ∈ (s.read id now frame).2) : refusal o.2 = true := by
  unfold Socket.read at h
  simp only at h
  split at h
  · cases frame with
    | parsed msg => exact absurd h List.not_mem_nil
    | garbled err join =>
      simp only at h
      split at h <;> rw [List.mem_singleton.mp h] <;> rfl
  · exact absurd h List.not_mem_nil

/-- Only a task that goes on has more to say than a refusal. -/
theorem State.refusal_of_not_resume (cfg : Config) {st : State} {ev : Event}
    (hev : ∀ id, ev ≠ .resume id) {o : Send} (h : o ∈ st.sends cfg ev) : refusal o.2 = true := by
  cases ev with
  | resume id => exact absurd rfl (hev id)
  | write id => exact absurd h List.not_mem_nil
  | hangup id => exact absurd h List.not_mem_nil
  | connect id now =>
    simp only [State.sends, State.act] at h
    split at h <;> exact absurd h List.not_mem_nil
  | stop id =>
    simp only [State.sends, State.act] at h
    split at h <;> exact absurd h List.not_mem_nil
  | frame id now frame =>
    simp only [State.sends, State.act] at h
    split at h
    · exact refusal_of_read h
    · exact absurd h List.not_mem_nil

theorem registered_isSome (app : AppState) (room v : String) :
    (app.registered room v).isSome = true ↔ v ∈ app.room room := by
  rw [AppState.registered, Option.isSome_map]
  exact AList.lookup_isSome

theorem roomRelated_of_refusal {msg : ServerMsg} (h : refusal msg = true) :
    roomRelated msg = false := by
  cases msg <;> first | rfl | exact absurd h Bool.noConfusion

theorem tells_of_refusal {msg : ServerMsg} (h : refusal msg = true) (v : String) :
    tells v msg = none := by
  cases msg <;> first | rfl | exact absurd h Bool.noConfusion

/-- What a cleanup says goes to everybody who stays. -/
theorem cleanup_tells {app : AppState} {room u userId : String} {i tx : SocketId}
    (h : app.registered room u = some i) (hne : u ≠ userId)
    (hmine : app.registered room userId = some tx) :
    (i, .peerLeft userId) ∈ (cleanup app (some (room, userId)) tx).2 := by
  obtain ⟨handle, hlookup, htx⟩ := (app.registered_eq_some).mp h
  simp only [cleanup, if_pos hmine, apply_ite Prod.snd, ite_self]
  refine List.mem_map.mpr ⟨⟨u, handle⟩, ?_, by rw [← htx]⟩
  rw [← AList.mem_lookup_iff, AList.lookup_erase_ne hne]
  exact hlookup

variable {st : State} {log : List SocketId}

/-- Whoever gets registered when a task goes on has joined by it. -/
theorem joined_of_registered (cfg : Config) {app : AppState} {id i : SocketId} {s : Socket}
    {room u : String} (hold : app.registered room u ≠ some i)
    (hnew : (resumed cfg app id s).app.registered room u = some i) :
    id = i ∧ s.me = none ∧ (resumed cfg app id s).me = some (room, u) ∧
      ∃ name secret, (resumed cfg app id s).app = (enter app id room u name secret).1 ∧
        (resumed cfg app id s).sends = (enter app id room u name secret).2 := by
  have hturn := resumed_turn cfg app id s
  generalize resumed cfg app id s = out at *
  cases hturn with
  | other hrooms hmeout hjoined hdone hsends =>
    refine absurd ?_ hold
    rwa [AppState.registered, AppState.room, hrooms] at hnew
  | cleanup hphase =>
    rw [registered_cleanup] at hnew
    split at hnew
    · exact absurd hnew (by simp)
    · exact absurd hnew hold
  | join hphase hnone hcap htake =>
    rename_i now proto room' userId name token secret
    rw [registered_enter] at hnew
    split at hnew
    · rename_i heq
      obtain ⟨rfl, rfl⟩ := heq
      exact ⟨Option.some.inj hnew, hnone, rfl, name, secret, rfl, rfl⟩
    · exact absurd hnew hold

/-- Everybody else in the room hears of whoever gets registered. -/
theorem newcomer_told (cfg : Config) {app : AppState} {id i j : SocketId} {s : Socket}
    {room u p : String} (hold : app.registered room p ≠ some j)
    (hnew : (resumed cfg app id s).app.registered room p = some j)
    (hreg : app.registered room u = some i) (hne : u ≠ p) :
    ∃ name, (i, .peerJoined p name) ∈ (resumed cfg app id s).sends := by
  obtain ⟨-, -, -, name, secret, -, hsends⟩ := joined_of_registered cfg hold hnew
  rw [hsends]
  exact ⟨name, enter_tells hreg hne id name secret⟩

/-- What one event tells a connection that is and stays registered is what has changed in its
room. -/
theorem told_kept (cfg : Config) (h : Registry (st, log)) (ev : Event) {room u : String}
    {i : SocketId} (hold : st.app.registered room u = some i)
    (hnew : (st.step cfg ev).app.registered room u = some i) (v : String) :
    believes v (sees st.app room u v) (sentTo (st.sends cfg ev) i) =
      sees (st.step cfg ev).app room u v := by
  by_cases hev : ∀ id, ev ≠ .resume id
  · rw [State.step_app, (st.act_of_not_resume cfg hev).1]
    refine believes_of_silent (fun msg hmsg => tells_of_refusal ?_ v) _
    exact st.refusal_of_not_resume cfg hev (mem_sentTo.mp hmsg)
  obtain ⟨id, rfl⟩ := not_forall_not.mp hev
  have hsends : st.sends cfg (.resume id) = (resumed cfg st.app id (st.socket id)).sends := rfl
  rw [State.step_resume_app] at hnew ⊢
  rw [hsends]
  have hturn := resumed_turn cfg st.app id (st.socket id)
  generalize resumed cfg st.app id (st.socket id) = out at *
  have hme := (h.owner room u i hold).1
  -- the room of `i` is the only one `i` is registered in
  have hroom : ∀ room' u', st.app.registered room' u' = some i → room' = room ∧ u' = u := by
    intro room' u' hreg
    have heq := (h.owner room' u' i hreg).1.symm.trans hme
    exact Prod.mk.inj (Option.some.inj heq)
  cases hturn with
  | other hrooms hmeout hjoined hdone hsends =>
    have hsame : sees out.app room u v = sees st.app room u v := by
      simp only [sees, AppState.registered, AppState.room, hrooms]
    rw [hsame]
    exact believes_of_silent (fun msg hmsg => tells_of_not_aboutMembers
      (hsends _ (mem_sentTo.mp hmsg)).1 v) _
  | join hphase hnone hcap htake =>
    rename_i now proto room' userId name token secret
    have hne : i ≠ id := by
      rintro rfl
      exact absurd (hme.symm.trans hnone) (by simp)
    have hheard : ∀ msg ∈ sentTo (enter st.app id room' userId name secret).2 i,
        tells v msg = none ∨ (room' = room ∧ msg = .peerJoined userId name) := by
      intro msg hmsg
      rcases enter_told (mem_sentTo.mp hmsg) with
        ⟨rfl, -⟩ | ⟨rfl, u', -, hreg⟩ | heq | ⟨⟨_, rfl⟩, -⟩
      · exact Or.inl rfl
      · exact Or.inr ⟨(hroom room' u' hreg).1, rfl⟩
      · exact absurd (Prod.mk.inj heq).1 hne
      · exact Or.inl rfl
    have hafter : sees (enter st.app id room' userId name secret).1 room u v =
        (if room' = room ∧ v = userId then decide (v ≠ u) else sees st.app room u v) := by
      simp only [sees, registered_enter]
      by_cases hc : room = room' ∧ v = userId
      · rw [if_pos hc, if_pos ⟨hc.1.symm, hc.2⟩, Option.isSome_some, Bool.and_true]
      · rw [if_neg hc, if_neg fun h => hc ⟨h.1.symm, h.2⟩]
    rw [hafter]
    by_cases hin : room' = room
    · -- `i` hears of the newcomer, which is not `i` itself
      have hu : u ≠ userId := by
        rintro rfl
        rw [registered_enter, if_pos ⟨hin.symm, rfl⟩] at hnew
        exact hne (Option.some.inj hnew).symm
      have htold := enter_tells (hin ▸ hold : st.app.registered room' u = some i) hu id name secret
      rw [believes_of_told (mem_sentTo.mpr htold) (fun msg hmsg => ?_)]
      · by_cases hv : v = userId
        · rw [if_pos ⟨hin, hv⟩, tells, if_pos hv, hv, Option.getD_some,
            decide_eq_true (Ne.symm hu)]
        · rw [if_neg fun hc => hv hc.2, tells, if_neg hv, Option.getD_none]
      · exact (hheard msg hmsg).imp_right fun hmsg => congrArg (tells v) hmsg.2
    · rw [if_neg fun hc => hin hc.1]
      refine believes_of_silent (fun msg hmsg => ?_) _
      exact (hheard msg hmsg).resolve_right fun hc => hin hc.1
  | cleanup hphase =>
    have hafter : sees (cleanup st.app (st.socket id).me id).1 room u v =
        (if (st.socket id).me = some (room, v) ∧ st.app.registered room v = some id then false
          else sees st.app room u v) := by
      simp only [sees, registered_cleanup]
      split
      · rw [Option.isSome_none, Bool.and_false]
      · rfl
    rw [hafter]
    by_cases hmine : ∃ userId, (st.socket id).me = some (room, userId) ∧
        st.app.registered room userId = some id
    · obtain ⟨userId, hmeid, hreg⟩ := hmine
      rw [hmeid] at hnew ⊢
      -- the one that leaves is not `i`
      have hu : u ≠ userId := by
        rintro rfl
        rw [registered_cleanup, if_pos ⟨rfl, hreg⟩] at hnew
        exact absurd hnew (by simp)
      rw [believes_of_told (mem_sentTo.mpr (cleanup_tells hold hu hreg)) (fun msg hmsg => ?_)]
      · by_cases hv : v = userId
        · rw [if_pos ⟨by rw [hv], hv ▸ hreg⟩, tells, if_pos hv, Option.getD_some]
        · rw [if_neg fun hc => hv (Prod.mk.inj (Option.some.inj hc.1)).2.symm, tells, if_neg hv,
            Option.getD_none]
      · obtain ⟨room', userId', -, heq, -, hmsg, -⟩ := cleanup_spec (mem_sentTo.mp hmsg)
        obtain ⟨rfl, rfl⟩ := Prod.mk.inj (Option.some.inj heq)
        exact Or.inr (congrArg (tells v) hmsg)
    · rw [if_neg fun hc => hmine ⟨v, hc⟩]
      -- whatever is said is said in another room
      refine believes_of_silent (fun msg hmsg => ?_) _
      obtain ⟨room', userId, name, heq, hreg, -, hi⟩ := cleanup_spec (mem_sentTo.mp hmsg)
      obtain ⟨rfl, -⟩ := hroom room' name hi
      exact absurd ⟨userId, heq, hreg⟩ hmine

/-- A connection that gets registered is told its roster first, and that is its room. -/
theorem told_joined (cfg : Config) (h : Registry (st, log)) (ev : Event) {room u : String}
    {i : SocketId} (hold : st.app.registered room u ≠ some i)
    (hnew : (st.step cfg ev).app.registered room u = some i) :
    (∃ peers rest, sentTo (st.sends cfg ev) i = .roster peers :: rest ∧
      ∀ msg ∈ rest, ∃ size, msg = .warn size warnCap) ∧
    ∀ v b, believes v b (sentTo (st.sends cfg ev) i) = sees (st.step cfg ev).app room u v := by
  by_cases hev : ∀ id, ev ≠ .resume id
  · rw [State.step_app, (st.act_of_not_resume cfg hev).1] at hnew
    exact absurd hnew hold
  obtain ⟨id, rfl⟩ := not_forall_not.mp hev
  rw [State.step_resume_app] at hnew ⊢
  obtain ⟨rfl, hnone, -, name, secret, happ, hsends⟩ := joined_of_registered cfg hold hnew
  rw [show st.sends cfg (.resume id) = (resumed cfg st.app id (st.socket id)).sends from rfl,
    hsends, happ]
  have hfresh : ∀ u', st.app.registered room u' ≠ some id := by
    intro u' hreg
    exact absurd ((h.owner room u' id hreg).1.symm.trans hnone) (by simp)
  obtain ⟨warns, heq, hwarns⟩ := enter_roster room u name secret hfresh
  refine ⟨⟨_, warns, heq, hwarns⟩, fun v b => ?_⟩
  rw [heq, believes_cons, believes_of_silent]
  · rw [tells, Option.getD_some, Bool.eq_iff_iff, decide_eq_true_iff, sees, Bool.and_eq_true,
      decide_eq_true_iff, registered_isSome]
    have hmem : v ∈ ((((st.app.room room).erase u).entries.map fun e =>
        (⟨e.1, e.2.name⟩ : PeerInfo)).map PeerInfo.userId) ↔ v ∈ (st.app.room room).erase u := by
      rw [List.map_map, AList.mem_keys]
      exact Iff.rfl
    rw [hmem, AList.mem_erase]
    refine and_congr_right fun hv => ?_
    rw [← registered_isSome, ← registered_isSome, registered_enter, if_neg fun hc => hv hc.2]
  · intro msg hmsg
    obtain ⟨size, rfl⟩ := hwarns msg hmsg
    rfl

/-- A connection that has joined stays joined, and one that has not only joins by getting
registered. -/
theorem me_step (cfg : Config) (st : State) (ev : Event) (i : SocketId) :
    ((st.step cfg ev).socket i).me = (st.socket i).me ∨
      ((st.socket i).me = none ∧
        ∃ room u, ((st.step cfg ev).socket i).me = some (room, u) ∧
          (st.step cfg ev).app.registered room u = some i) := by
  by_cases hev : ∀ id, ev ≠ .resume id
  · exact Or.inl ((st.step_me cfg ev i).trans ((st.act_of_not_resume cfg hev).2.1 i).1)
  obtain ⟨id, rfl⟩ := not_forall_not.mp hev
  rw [State.step_resume_me, State.step_resume_app]
  by_cases hi : i = id
  · rw [if_pos hi, hi]
    have hturn := resumed_turn cfg st.app id (st.socket id)
    generalize resumed cfg st.app id (st.socket id) = out at *
    cases hturn with
    | other hrooms hmeout hjoined hdone hsends => exact Or.inl hmeout
    | cleanup hphase => exact Or.inl rfl
    | join hphase hnone hcap htake =>
      exact Or.inr ⟨hnone, _, _, rfl, (registered_enter _ _ _ _ _ _ _ _).trans (if_pos ⟨rfl, rfl⟩)⟩
  · exact Or.inl (if_neg hi)

/-- Only connections that have joined hear of a room. -/
theorem joined_of_roomRelated (cfg : Config) (h : Registry (st, log)) {ev : Event} {o : Send}
    (ho : o ∈ st.sends cfg ev) (hrel : roomRelated o.2 = true) :
    ((st.step cfg ev).socket o.1).me ≠ none := by
  have hstay : ∀ room u, st.app.registered room u = some o.1 →
      ((st.step cfg ev).socket o.1).me ≠ none := by
    intro room u hreg
    have hme := (h.owner room u o.1 hreg).1
    rcases me_step cfg st ev o.1 with hsame | ⟨hnone, -⟩
    · rw [hsame, hme]
      simp
    · exact absurd (hme.symm.trans hnone) (by simp)
  by_cases hev : ∀ id, ev ≠ .resume id
  · have hnot := roomRelated_of_refusal (st.refusal_of_not_resume cfg hev ho)
    exact absurd (hnot.symm.trans hrel) Bool.false_ne_true
  obtain ⟨id, rfl⟩ := not_forall_not.mp hev
  have hmestep := st.step_resume_me cfg id
  change o ∈ (resumed cfg st.app id (st.socket id)).sends at ho
  have hturn := resumed_turn cfg st.app id (st.socket id)
  generalize resumed cfg st.app id (st.socket id) = out at *
  cases hturn with
  | other hrooms hmeout hjoined hdone hsends =>
    obtain ⟨room, u, hreg⟩ := (hsends o ho).2 hrel
    exact hstay room u hreg
  | cleanup hphase =>
    obtain ⟨room, userId, name, -, -, -, hreg⟩ := cleanup_spec ho
    exact hstay room name hreg
  | join hphase hnone hcap htake =>
    rename_i now proto room userId name token secret
    have hself : ((st.step cfg (.resume id)).socket id).me ≠ none := by
      rw [hmestep, if_pos rfl]
      simp
    rcases enter_told ho with ⟨-, hreg⟩ | ⟨-, u, -, hreg⟩ | heq | ⟨-, heq | ⟨u, hreg⟩⟩
    · exact hstay room userId hreg
    · exact hstay room u hreg
    · rw [heq]
      exact hself
    · rw [heq]
      exact hself
    · exact hstay room u hreg

/-! ## What has been queued -/

/-- Everything that has been put into a connection's queue so far, oldest first. -/
abbrev Heard := SocketId → List ServerMsg

/-- Does `try_send` take the message? -/
def State.accepts (st : State) (o : Send) : Bool :=
  (st.socket o.1).writing && decide ((st.socket o.1).queue.length < peerChan)

def record (s : State × Heard) (o : Send) : State × Heard :=
  (s.1.trySend o,
    if s.1.accepts o then Function.update s.2 o.1 (s.2 o.1 ++ [o.2]) else s.2)

/-- One event, with everything queued so far kept beside the state. -/
def recorded (cfg : Config) (s : State × Heard) (ev : Event) : State × Heard :=
  (s.1.sends cfg ev).foldl record ((s.1.act cfg ev).1, s.2)

/-- There is room in the queue for each of the messages, pushed one after the other. -/
def Fits (st : State) : List Send → Prop
  | [] => True
  | o :: os => (st.socket o.1).queue.length < peerChan ∧ Fits (st.trySend o) os

instance decidableFits : ∀ (st : State) (os : List Send), Decidable (Fits st os)
  | _, [] => isTrue trivial
  | st, o :: os =>
    have := decidableFits (st.trySend o) os
    inferInstanceAs (Decidable (_ ∧ _))

/-- No queue overflows in this step. -/
def NoOverflow (cfg : Config) (s : State × Heard) (ev : Event) : Prop :=
  Fits (s.1.act cfg ev).1 (s.1.sends cfg ev)

instance (cfg : Config) (s : State × Heard) (ev : Event) : Decidable (NoOverflow cfg s ev) :=
  decidableFits _ _

theorem recorded_fst (cfg : Config) (s : State × Heard) (ev : Event) :
    (recorded cfg s ev).1 = s.1.step cfg ev := by
  have hfold : ∀ (os : List Send) (s : State × Heard),
      (os.foldl record s).1 = os.foldl State.trySend s.1 := by
    intro os
    induction os with
    | nil => exact fun _ => rfl
    | cons o os ih => exact fun s => ih (record s o)
  exact hfold _ _

theorem read_writing (s : Socket) (id : SocketId) (now : ℕ) (frame : Frame) :
    (s.read id now frame).1.writing = s.writing := by
  have hcount : (s.count now).1.writing = s.writing := by
    rw [Socket.count]
    split <;> rfl
  unfold Socket.read
  simp only
  split
  · cases frame with
    | parsed msg => exact hcount
    | garbled err join =>
      simp only
      split <;> exact hcount
  · exact hcount

/-- A writer that has ended stays ended. -/
theorem State.writing_of_act (cfg : Config) (st : State) (ev : Event) (i : SocketId) :
    ((st.act cfg ev).1.socket i).writing = true → (st.socket i).writing = true := by
  have hput : ∀ (app : AppState) (id : SocketId) (s : Socket),
      (s.writing = true → (st.socket id).writing = true) →
      (((State.mk app st.socket).put id s).socket i).writing = true →
      (st.socket i).writing = true := by
    intro app id s hs
    rw [State.put_socket]
    split
    · rename_i hi
      rw [hi]
      exact hs
    · exact fun h => h
  cases ev with
  | resume id => exact hput _ id _ fun h => h
  | write id => exact hput _ id _ fun h => h
  | hangup id => exact hput _ id _ fun h => absurd h Bool.false_ne_true
  | connect id now =>
    simp only [State.act]
    split
    · exact hput _ id _ fun h => h
    · exact fun h => h
  | stop id =>
    simp only [State.act]
    split
    · exact hput _ id _ fun h => h
    · exact fun h => h
  | frame id now frame =>
    simp only [State.act]
    split
    · refine hput _ id _ fun h => ?_
      rwa [read_writing] at h
    · exact fun h => h

theorem trySend_writing (st : State) (o : Send) (i : SocketId) :
    ((st.trySend o).socket i).writing = (st.socket i).writing := by
  rw [State.trySend]
  split
  · rw [State.put_socket]
    split
    · rename_i hi
      rw [hi]
    · rfl
  · rfl

/-- What is pushed to a running writer that has room is queued, and nothing else is. -/
theorem foldl_record {os : List Send} {s : State × Heard} (hfits : Fits s.1 os) (i : SocketId) :
    ((os.foldl record s).1.socket i).writing = (s.1.socket i).writing ∧
      (os.foldl record s).2 i =
        if (s.1.socket i).writing = true then s.2 i ++ sentTo os i else s.2 i := by
  induction os generalizing s with
  | nil => simp
  | cons o os ih =>
    obtain ⟨hlen, hrest⟩ := hfits
    obtain ⟨hwriting, hheard⟩ := ih (s := record s o) hrest
    have hkeep : ((record s o).1.socket i).writing = (s.1.socket i).writing :=
      trySend_writing s.1 o i
    refine ⟨hwriting.trans hkeep, ?_⟩
    rw [List.foldl_cons, hheard, hkeep]
    have hone : sentTo (o :: os) i = sentTo [o] i ++ sentTo os i :=
      sentTo_append [o] os i
    by_cases hi : o.1 = i
    · have htaken : (record s o).2 i =
          if (s.1.socket i).writing = true then s.2 i ++ [o.2] else s.2 i := by
        rw [record, State.accepts, decide_eq_true hlen, Bool.and_true, hi]
        split
        · exact Function.update_self i _ s.2
        · rfl
      have hsent : sentTo [o] i = [o.2] := (sentTo_singleton o.1 i o.2).trans (if_pos hi)
      rw [htaken, hone, hsent]
      split
      · rw [List.append_assoc]
      · rfl
    · have hskip : (record s o).2 i = s.2 i := by
        rw [record]
        split
        · exact Function.update_of_ne (Ne.symm hi) _ _
        · rfl
      have hsent : sentTo [o] i = [] := (sentTo_singleton o.1 i o.2).trans (if_neg hi)
      rw [hskip, hone, hsent, List.nil_append]

/-! ## The invariant -/

/-- How what was queued hangs together with who is registered. -/
structure Views (s : State × Heard) : Prop where
  registry : ∃ log, Registry (s.1, log)
  /-- A connection that has not joined has heard of no room. -/
  outside : ∀ i, (s.1.socket i).me = none → ∀ msg ∈ s.2 i, roomRelated msg = false
  /-- A connection that has joined has heard of its room, if its writer runs. -/
  inside : ∀ i, (s.1.socket i).me ≠ none → (s.1.socket i).writing = true →
    ((s.2 i).find? roomRelated).isSome = true
  /-- The roster came first. -/
  first : ∀ i msg, (s.2 i).find? roomRelated = some msg → ∃ peers, msg = .roster peers
  agrees : ∀ room u i, s.1.app.registered room u = some i → (s.1.socket i).writing = true →
    ∀ v b, believes v b (s.2 i) = sees s.1.app room u v

namespace Views

variable {s : State × Heard}

theorem init : Views (State.init, fun _ => []) where
  registry := ⟨[], Registry.init⟩
  outside i _ msg h := absurd h List.not_mem_nil
  inside i h := absurd rfl h
  first i msg h := absurd h (by simp)
  agrees room u i h := absurd h (by
    simp [State.init, AppState.new, AppState.registered, AppState.room])

theorem step (cfg : Config) (h : Views s) (ev : Event) (hroom : NoOverflow cfg s ev) :
    Views (recorded cfg s ev) := by
  obtain ⟨log, hreg⟩ := h.registry
  have hfst := recorded_fst cfg s ev
  -- what is queued for `i` in this step
  have hheard : ∀ i, (recorded cfg s ev).2 i = s.2 i ∧
      ((s.1.step cfg ev).socket i).writing = false ∨
      (recorded cfg s ev).2 i = s.2 i ++ sentTo (s.1.sends cfg ev) i ∧
        (s.1.socket i).writing = true := by
    intro i
    obtain ⟨hwriting, hqueued⟩ := foldl_record (s := ((s.1.act cfg ev).1, s.2)) hroom i
    rw [← hfst]
    cases hw : ((s.1.act cfg ev).1.socket i).writing with
    | false => exact Or.inl ⟨by rw [recorded, hqueued, hw]; rfl, hwriting.trans hw⟩
    | true => exact Or.inr ⟨by rw [recorded, hqueued, hw]; rfl, s.1.writing_of_act cfg ev i hw⟩
  have hnew : ∀ i, (s.1.socket i).me = none → ((s.1.step cfg ev).socket i).me ≠ none →
      ∃ peers rest, sentTo (s.1.sends cfg ev) i = .roster peers :: rest := by
    intro i hnone hsome
    rcases me_step cfg s.1 ev i with hsame | ⟨-, room, u, -, hreg'⟩
    · exact absurd (hsame.trans hnone) hsome
    · have hold : s.1.app.registered room u ≠ some i := fun hc =>
        absurd ((hreg.owner room u i hc).1.symm.trans hnone) (by simp)
      obtain ⟨⟨peers, rest, heq, -⟩, -⟩ := told_joined cfg hreg ev hold hreg'
      exact ⟨peers, rest, heq⟩
  refine ⟨⟨(watched cfg (s.1, log) ev).2, by rw [hfst]; exact hreg.step cfg ev⟩, ?_, ?_, ?_, ?_⟩
  · intro i hnone msg hmsg
    rw [hfst] at hnone
    have hbefore : (s.1.socket i).me = none := by
      rcases me_step cfg s.1 ev i with hsame | ⟨hn, -⟩
      · exact hsame.symm.trans hnone
      · exact hn
    rcases hheard i with ⟨heq, -⟩ | ⟨heq, -⟩
    · exact h.outside i hbefore msg (heq ▸ hmsg)
    · rw [heq] at hmsg
      rcases List.mem_append.mp hmsg with hmsg | hmsg
      · exact h.outside i hbefore msg hmsg
      · refine Bool.eq_false_iff.mpr fun hrel => ?_
        exact joined_of_roomRelated cfg hreg (mem_sentTo.mp hmsg) hrel hnone
  · intro i hsome hwriting
    rw [hfst] at hsome hwriting
    rcases hheard i with ⟨-, hw⟩ | ⟨heq, hw⟩
    · exact absurd (hw.symm.trans hwriting) Bool.false_ne_true
    · rw [heq, List.find?_append]
      by_cases hbefore : (s.1.socket i).me = none
      · obtain ⟨peers, rest, hsent⟩ := hnew i hbefore hsome
        rw [hsent, List.find?_cons_of_pos rfl]
        cases (s.2 i).find? roomRelated <;> rfl
      · obtain ⟨m, hm⟩ := Option.isSome_iff_exists.mp (h.inside i hbefore hw)
        rw [hm]
        rfl
  · intro i msg hfind
    rcases hheard i with ⟨heq, -⟩ | ⟨heq, hw⟩
    · exact h.first i msg (heq ▸ hfind)
    · rw [heq, List.find?_append] at hfind
      cases hold : (s.2 i).find? roomRelated with
      | some m =>
        rw [hold] at hfind
        exact h.first i msg (hold.trans hfind)
      | none =>
        -- the first thing `i` hears of a room
        rw [hold, Option.none_or] at hfind
        have hbefore : (s.1.socket i).me = none := by
          by_contra hc
          have hin := h.inside i hc hw
          rw [hold] at hin
          exact Bool.false_ne_true hin
        have hmem := mem_sentTo.mp (List.mem_of_find?_eq_some hfind)
        have hsome := joined_of_roomRelated cfg hreg hmem (List.find?_some hfind)
        obtain ⟨peers, rest, hsent⟩ := hnew i hbefore hsome
        rw [hsent, List.find?_cons_of_pos rfl] at hfind
        exact ⟨peers, (Option.some.inj hfind).symm⟩
  · intro room u i hregi hwriting v b
    rw [hfst] at hregi hwriting ⊢
    rcases hheard i with ⟨-, hw⟩ | ⟨heq, hw⟩
    · exact absurd (hw.symm.trans hwriting) Bool.false_ne_true
    · rw [heq, believes_append]
      by_cases hold : s.1.app.registered room u = some i
      · rw [h.agrees room u i hold hw]
        exact told_kept cfg hreg ev hold hregi v
      · exact (told_joined cfg hreg ev hold hregi).2 v _

theorem run (cfg : Config) {es : List Event}
    (hes : StepRun.EveryStep (recorded cfg) (NoOverflow cfg) (State.init, fun _ => []) es) :
    Views (StepRun.run (recorded cfg) (State.init, fun _ => []) es) :=
  StepRun.run_invariant (fun _ ev h hroom => h.step cfg ev hroom) init hes

/-- What has been queued for a registered connection adds up to its room without itself, whatever
the view was before. -/
theorem foldl_view (h : Views s) {room u : String} {i : SocketId}
    (hreg : s.1.app.registered room u = some i) (hwriting : (s.1.socket i).writing = true)
    (seen : Finset String) :
    (s.2 i).foldl view seen = (s.1.app.room room).keys.toFinset.erase u := by
  ext v
  rw [mem_foldl_view, h.agrees room u i hreg hwriting, sees, Bool.and_eq_true, decide_eq_true_iff,
    registered_isSome, Finset.mem_erase, List.mem_toFinset, AList.mem_keys]

end Views

/-- As long as no queue overflows, every connection is told its roster before anything else of its
room, and what a registered connection whose writer runs has been told adds up to the room without
itself.  So do the members of its engine, once it has handled these frames. -/
theorem views_agree (cfg : Config) (es : List Event)
    (hes : StepRun.EveryStep (recorded cfg) (NoOverflow cfg) (State.init, fun _ => []) es) :
    let s := StepRun.run (recorded cfg) (State.init, fun _ => []) es
    (∀ i msg, (s.2 i).find? roomRelated = some msg → ∃ peers, msg = .roster peers) ∧
      ∀ room u i, s.1.app.registered room u = some i → (s.1.socket i).writing = true →
        (s.2 i).foldl view ∅ = (s.1.app.room room).keys.toFinset.erase u ∧
        ∀ (e : Keys.Engine) (inputs : List (Keys.Env × Keys.Event)),
          inputs.filterMap (fun input => signalPart input.2) = (s.2 i).filterMap signalOf →
          (StepRun.run Keys.Engine.step e inputs).members.toFinset =
            (s.1.app.room room).keys.toFinset.erase u := by
  have hviews := Views.run cfg hes
  refine ⟨hviews.first, fun room u i hreg hwriting => ⟨hviews.foldl_view hreg hwriting ∅, ?_⟩⟩
  intro e inputs hinputs
  rw [members_run e inputs _ hinputs]
  exact hviews.foldl_view hreg hwriting _

/-- "u" and "w" join, "u" joins again from another connection, and its first one ends. -/
def retaken : List Event :=
  joinRun 1 "u" ++ joinRun 2 "w" ++ joinRun 3 "u" ++ [.stop 1, .resume 1]

/-- The second connection of "u" hears of "w", and "w" still of "u". -/
theorem views_agree_retaken :
    let s := StepRun.run (recorded openConfig) (State.init, fun _ => []) retaken
    (s.2 3).foldl view ∅ = {"w"} ∧ (s.2 2).foldl view ∅ = {"u"} := by
  have h := (views_agree openConfig retaken (by decide +kernel)).2
  have hw := (h "r" "w" 2 (by decide +kernel) (by decide +kernel)).1
  have hu := (h "r" "u" 3 (by decide +kernel) (by decide +kernel)).1
  exact ⟨hu.trans (by decide +kernel), hw.trans (by decide +kernel)⟩

/-- A connection whose writer has ended stays registered until its task ends too, and hears of
nobody who joins in between. -/
theorem dead_writer_misses :
    ¬∀ cfg es, StepRun.EveryStep (recorded cfg) (NoOverflow cfg) (State.init, fun _ => []) es →
      ∀ room u i,
        (StepRun.run (recorded cfg) (State.init, fun _ => []) es).1.app.registered room u = some i →
        ((StepRun.run (recorded cfg) (State.init, fun _ => []) es).2 i).foldl view ∅ =
          ((StepRun.run (recorded cfg) (State.init, fun _ => []) es).1.app.room
            room).keys.toFinset.erase u := by
  intro h
  have hmissed := h openConfig (joinRun 1 "u" ++ [.hangup 1] ++ joinRun 2 "w") (by decide +kernel)
    "r" "u" 1 (by decide +kernel)
  exact absurd hmissed (by decide +kernel)

end Subraum.Server
