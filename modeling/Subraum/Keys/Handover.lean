import Subraum.Keys.AuthorityStep

/-!
# Handover after the authority leaves

The authority `m` of a room that agrees on a key rotates a last time, its new key reaches only the
members `D`, and it leaves.  The smallest survivor `n` rotates when it handles `PeerLeft(m)` and
hands its key to everybody.

`Relay` is the invariant from that rotation on: every other survivor has `n`'s key still to come,
has taken it if it was better than what the survivor held, or has missed it, because the survivor
had not handled `PeerLeft(m)` itself and so did not hold `n` to be the authority.
-/

namespace Subraum.Keys.Room

open Crypto

/-- `m` rotates a last time and the new key reaches the members `D`. -/
def lastRotation (room : Room) (m : String) (env : Env) (D : List String) : Room :=
  StepRun.run step room (.turn m (env, .signal .rekey) :: D.map fun d => .deliver m d env)

/-- What the survivor `s` holds after `m`'s last rotation from `k` reached `D`. -/
def heldAfter (k : RoomKey) (m : String) (random : Key) (D : List String) (s : String) : RoomKey :=
  if s ∈ D then nextKey k m random else k

/-- A survivor other than `n` handles `PeerLeft(m)`, or a message between survivors is delivered. -/
def Aside (S : List String) (n m : String) : RoomEvent → Prop
  | .turn s (_, .signal (.peerLeft x)) => s ∈ S ∧ s ≠ n ∧ x = m
  | .turn _ _ => False
  | .deliver src dst _ => src ∈ S ∧ dst ∈ S

instance (S : List String) (n m : String) (ev : RoomEvent) : Decidable (Aside S n m ev) := by
  unfold Aside
  split <;> infer_instance

theorem Aside.cases {S : List String} {n m : String} {ev : RoomEvent} (h : Aside S n m ev) :
    (∃ src dst env, ev = .deliver src dst env ∧ src ∈ S ∧ dst ∈ S) ∨
      ∃ s env, ev = .turn s (env, .signal (.peerLeft m)) ∧ s ∈ S ∧ s ≠ n := by
  match ev, h with
  | .deliver src dst env, h => exact Or.inl ⟨src, dst, env, rfl, h⟩
  | .turn s (env, .signal (.peerLeft x)), ⟨hs, hsn, hx⟩ =>
    exact Or.inr ⟨s, env, hx ▸ rfl, hs, hsn⟩

/-- The survivor a message reaches, if it still lists `m`. -/
def missedBy (m : String) (room : Room) : RoomEvent → List String
  | .turn _ _ => []
  | .deliver src dst _ =>
    if room.link src dst ≠ [] ∧ m ∈ (room.node dst).members then [dst] else []

/-- One event, with the survivors that missed a message so far kept beside the room. -/
def watched (m : String) (s : Room × List String) (ev : RoomEvent) : Room × List String :=
  StepRun.logged (fun room ev => (room.step ev, missedBy m room ev)) s ev

/-- A message finds its receiver rid of `m`. -/
def Informed (m : String) (room : Room) : RoomEvent → Prop
  | .turn _ _ => True
  | .deliver src dst _ => room.link src dst ≠ [] → m ∉ (room.node dst).members

instance (m : String) (room : Room) (ev : RoomEvent) : Decidable (Informed m room ev) := by
  unfold Informed
  split <;> infer_instance

theorem missedBy_eq_nil_iff (m : String) (room : Room) (ev : RoomEvent) :
    missedBy m room ev = [] ↔ Informed m room ev := by
  cases ev with
  | turn i input => simp [missedBy, Informed]
  | deliver src dst env => simp [missedBy, Informed]

/-! ## Before the successor rotates -/

/-- The survivors still hold what `m` left them with, and nothing is in flight between them. -/
structure Bereft (room : Room) (S : List String) (n m : String) (held : String → RoomKey) :
    Prop where
  mem : n ∈ S
  gone : m ∉ S
  least : ∀ s ∈ S, s ≠ n → n < s
  smaller : ∀ s ∈ S, m < s
  /-- A survivor sees the others, and `m` until it handles `PeerLeft(m)`. -/
  seat : ∀ s ∈ S, Seat (room.node s) s (fun p => p ∈ S ∧ p ≠ s) ∨
    Seat (room.node s) s fun p => p = m ∨ (p ∈ S ∧ p ≠ s)
  holds : ∀ s ∈ S, (room.node s).keys.room.cur = some (held s)
  quiet : room.QuietAmong S

/-- A survivor that sees somebody smaller than itself is not the authority. -/
theorem not_authority_of_sees {e : Engine} {id p : String} {sees : String → Prop}
    (h : Seat e id sees) (hp : sees p) (hlt : p < id) : e.authority = false :=
  Bool.eq_false_iff.mpr fun hauth => lt_asymm hlt (h.authority_iff.mp hauth p hp)

/-- `PeerLeft(m)` leaves a survivor with the other survivors. -/
theorem seat_informed {e : Engine} {s m : String} {S : List String} (hm : m ∉ S)
    (h : Seat e s (fun p => p ∈ S ∧ p ≠ s) ∨ Seat e s fun p => p = m ∨ (p ∈ S ∧ p ≠ s)) :
    Seat (e.informed (.peerLeft m)) s fun p => p ∈ S ∧ p ≠ s := by
  have hmem : ∀ p, p ∈ (e.informed (.peerLeft m)).members ↔ p ∈ e.members ∧ p ≠ m := fun p => by
    simp [Engine.informed, Engine.seen]
  rcases h with h | h
  · refine ⟨h.wf, h.meId, fun p => ?_, h.nodup.filter _⟩
    rw [hmem, h.members]
    exact ⟨fun hp => hp.1, fun hp => ⟨hp, fun heq => hm (heq ▸ hp.1)⟩⟩
  · refine ⟨h.wf, h.meId, fun p => ?_, h.nodup.filter _⟩
    rw [hmem, h.members]
    exact ⟨fun hp => hp.1.resolve_left hp.2, fun hp => ⟨Or.inr hp, fun heq => hm (heq ▸ hp.1)⟩⟩

/-- A survivor other than the smallest does not rotate on `PeerLeft(m)`. -/
theorem turn_peerLeft {e : Engine} {s n m : String} {S : List String} (hn : n ∈ S) (hsn : s ≠ n)
    (hlt : n < s) (h : Seat (e.informed (.peerLeft m)) s fun p => p ∈ S ∧ p ≠ s) (env : Env) :
    turn e (env, .signal (.peerLeft m)) = (e.informed (.peerLeft m), []) := by
  refine Engine.turn_signal_of_not_rotates (fun hrot => ?_) env
  have hfalse := not_authority_of_sees h ⟨hn, hsn.symm⟩ hlt
  exact Bool.false_ne_true (hfalse.symm.trans hrot.1)

/-- Hearing of `PeerLeft(m)` moves no key and sends nothing. -/
theorem act_informed (room : Room) (s m : String) :
    (∀ p, ((room.act s ((room.node s).informed (.peerLeft m), [])).node p).keys =
      (room.node p).keys) ∧
    ∀ src dst, (room.act s ((room.node s).informed (.peerLeft m), [])).link src dst =
      room.link src dst :=
  ⟨FifoNet.act_node_congr Engine.keys rfl, FifoNet.act_link_of_silent rfl⟩

namespace Bereft

variable {room : Room} {S : List String} {n m : String} {held : String → RoomKey}

theorem step (h : room.Bereft S n m held) {ev : RoomEvent} (hev : Aside S n m ev) :
    (room.step ev).Bereft S n m held := by
  rcases hev.cases with ⟨src, dst, env, rfl, hsrc, hdst⟩ | ⟨s, env, rfl, hs, hsn⟩
  · have hlink := h.quiet src hsrc dst hdst
    rwa [Room.step, FifoNet.step_deliver_nil hlink]
  · have hseat := seat_informed h.gone (h.seat s hs)
    have hstep : room.step (.turn s (env, .signal (.peerLeft m))) =
        room.act s ((room.node s).informed (.peerLeft m), []) := by
      rw [Room.step, FifoNet.step_turn, turn_peerLeft h.mem hsn (h.least s hs hsn) hseat]
    obtain ⟨hkeys, hlink⟩ := act_informed room s m
    rw [hstep]
    refine { h with
      seat := fun p hp => ?_, holds := fun p hp => ?_, quiet := fun src hsrc dst hdst => ?_ }
    · by_cases hps : p = s
      · rw [hps, FifoNet.act_node_self]
        exact Or.inl hseat
      · rw [FifoNet.act_node_ne hps]
        exact h.seat p hp
    · rw [hkeys]
      exact h.holds p hp
    · rw [hlink]
      exact h.quiet src hsrc dst hdst

end Bereft

/-! ## After the successor rotated -/

/-- The successor `n` has rotated to `new`; `missed` are the survivors it could not reach. -/
structure Relay (S : List String) (n m : String) (held : String → RoomKey) (new : RoomKey)
    (s : Room × List String) : Prop where
  mem : n ∈ S
  gone : m ∉ S
  least : ∀ p ∈ S, p ≠ n → n < p
  smaller : ∀ p ∈ S, m < p
  seat : ∀ p ∈ S, Seat (s.1.node p) p (fun q => q ∈ S ∧ q ≠ p) ∨
    Seat (s.1.node p) p fun q => q = m ∨ (q ∈ S ∧ q ≠ p)
  successor : (s.1.node n).keys.room.cur = some new
  fromOthers : ∀ src ∈ S, ∀ dst ∈ S, src ≠ n ∨ dst = n → s.1.link src dst = []
  missed : ∀ p ∈ s.2, p ∈ S ∧ p ≠ n
  survivor : ∀ p ∈ S, p ≠ n →
    (s.1.link n p = [.roomKey new.gen new.key] ∧ (s.1.node p).keys.room.cur = some (held p) ∧
        p ∉ s.2) ∨
      (s.1.link n p = [] ∧ (s.1.node p).keys.room.cur =
        some (if p ∈ s.2 then held p else heeded new n (held p)))

namespace Relay

variable {S : List String} {n m : String} {held : String → RoomKey} {new : RoomKey}
  {room : Room} {missed : List String}

/-- A survivor handles `PeerLeft(m)`. -/
theorem peerLeft (h : Relay S n m held new (room, missed)) {s : String} (hs : s ∈ S) (hsn : s ≠ n)
    (env : Env) :
    Relay S n m held new (watched m (room, missed) (.turn s (env, .signal (.peerLeft m)))) := by
  have hseat := seat_informed h.gone (h.seat s hs)
  have hstep : room.step (.turn s (env, .signal (.peerLeft m))) =
      room.act s ((room.node s).informed (.peerLeft m), []) := by
    rw [Room.step, FifoNet.step_turn, turn_peerLeft h.mem hsn (h.least s hs hsn) hseat]
  have hwatched : watched m (room, missed) (.turn s (env, .signal (.peerLeft m))) =
      (room.act s ((room.node s).informed (.peerLeft m), []), missed) := by
    rw [watched, StepRun.logged, hstep, missedBy, List.append_nil]
  obtain ⟨hcur, hlink⟩ := act_informed room s m
  rw [hwatched]
  refine { h with
    seat := fun p hp => ?_
    successor := by rw [hcur]; exact h.successor
    fromOthers := fun src hsrc dst hdst hc => by rw [hlink]; exact h.fromOthers src hsrc dst hdst hc
    survivor := fun p hp hpn => by rw [hlink, hcur]; exact h.survivor p hp hpn }
  by_cases hps : p = s
  · rw [hps, FifoNet.act_node_self]
    exact Or.inl hseat
  · rw [FifoNet.act_node_ne hps]
    exact h.seat p hp

/-- What a survivor holds once the successor's key reached it. -/
theorem offered_survivor (h : Relay S n m held new (room, missed)) {p : String} (hp : p ∈ S)
    (hpn : p ≠ n) (hcur : (room.node p).keys.room.cur = some (held p)) :
    ((room.node p).offered (via new n)).keys.room.cur =
      some (if m ∈ (room.node p).members then held p else heeded new n (held p)) := by
  rcases h.seat p hp with hseat | hseat
  · -- the survivor is rid of `m`, so `n` is its authority
    have hm : m ∉ (room.node p).members := fun hm => h.gone ((hseat.members m).mp hm).1
    rw [if_neg hm]
    exact hseat.offered_cur hcur ⟨h.least p hp hpn, fun q hq =>
      or_iff_not_imp_left.mpr (h.least q hq.1)⟩
  · -- the survivor still sees the smaller `m`
    have hm : m ∈ (room.node p).members := (hseat.members m).mpr (Or.inl rfl)
    rw [if_pos hm, hseat.offered_of_not_authority, hcur]
    rintro ⟨-, hleast⟩
    rcases hleast m (Or.inl rfl) with heq | hlt
    · exact h.gone (heq ▸ h.mem)
    · exact lt_asymm hlt (h.smaller n h.mem)

/-- A message between survivors is delivered. -/
theorem deliver (h : Relay S n m held new (room, missed)) {src dst : String} (hsrc : src ∈ S)
    (hdst : dst ∈ S) (env : Env) :
    Relay S n m held new (watched m (room, missed) (.deliver src dst env)) := by
  have hwatched : watched m (room, missed) (.deliver src dst env) =
      (room.step (.deliver src dst env), missed ++ missedBy m room (.deliver src dst env)) := rfl
  rw [hwatched]
  -- only the successor's links carry anything
  by_cases hempty : room.link src dst = []
  · rwa [Room.step, FifoNet.step_deliver_nil hempty, missedBy, if_neg fun hc => hc.1 hempty,
      List.append_nil]
  · obtain ⟨rfl, hdn⟩ : src = n ∧ dst ≠ n := by
      by_contra hc
      exact hempty (h.fromOthers src hsrc dst hdst (by tauto))
    rcases h.survivor dst hdst hdn with ⟨hlink, hcur, hmissed⟩ | ⟨hlink, -⟩
    · have hafter := h.offered_survivor hdst hdn hcur
      rw [step_deliver_roomKey hlink]
      set room' := (room.pop src dst).act dst ((room.node dst).offered (via new src), [])
        with hroom'
      have hself : room'.node dst = (room.node dst).offered (via new src) :=
        FifoNet.act_node_self dst _
      have hother : ∀ p, p ≠ dst → room'.node p = room.node p :=
        fun p hp => FifoNet.act_node_ne hp _
      have hlinks : ∀ src' dst', room'.link src' dst' = (room.pop src dst).link src' dst' :=
        FifoNet.act_link_of_silent rfl
      have hnew : ∀ p, p ∈ missed ++ missedBy m room (.deliver src dst env) ↔
          p ∈ missed ∨ (p = dst ∧ m ∈ (room.node dst).members) := by
        intro p
        rw [List.mem_append, missedBy]
        by_cases hm : m ∈ (room.node dst).members
        · rw [if_pos ⟨hempty, hm⟩, List.mem_singleton, and_iff_left hm]
        · rw [if_neg fun hc => hm hc.2]
          simp [hm]
      refine ⟨h.mem, h.gone, h.least, h.smaller, fun p hp => ?_, ?_,
        fun src' hsrc' dst' hdst' hc => ?_, fun p hp => ?_, fun p hp hpn => ?_⟩
      · by_cases hpd : p = dst
        · rw [hpd, hself]
          exact (h.seat dst hdst).imp (fun hseat => hseat.offered _) fun hseat => hseat.offered _
        · rw [hother p hpd]
          exact h.seat p hp
      · rw [hother src hdn.symm]
        exact h.successor
      · rw [hlinks, FifoNet.pop_link_ne]
        · exact h.fromOthers src' hsrc' dst' hdst' hc
        · rintro ⟨rfl, rfl⟩
          exact hc.elim (fun hc => hc rfl) hdn
      · rcases (hnew p).mp hp with hp | ⟨rfl, -⟩
        · exact h.missed p hp
        · exact ⟨hdst, hdn⟩
      · by_cases hpd : p = dst
        · refine Or.inr ⟨?_, ?_⟩
          · rw [hpd, hlinks, FifoNet.pop_link_self, hlink, List.tail_cons]
          · rw [hpd, hself, hafter]
            refine congrArg some (if_congr ?_ rfl rfl)
            rw [hnew dst]
            exact ⟨fun hm => Or.inr ⟨rfl, hm⟩, fun hc => (hc.resolve_left hmissed).2⟩
        · have hmem : p ∈ missed ++ missedBy m room (.deliver src dst env) ↔ p ∈ missed := by
            rw [hnew]
            exact or_iff_left fun hc => hpd hc.1
          rw [hlinks, FifoNet.pop_link_ne fun hc => hpd hc.2, hother p hpd]
          simp only [hmem]
          exact h.survivor p hp hpn
    · exact absurd hlink hempty

theorem step {s : Room × List String} (h : Relay S n m held new s) {ev : RoomEvent}
    (hev : Aside S n m ev) : Relay S n m held new (watched m s ev) := by
  obtain ⟨room, missed⟩ := s
  rcases hev.cases with ⟨src, dst, env, rfl, hsrc, hdst⟩ | ⟨p, env, rfl, hp, hpn⟩
  · exact h.deliver hsrc hdst env
  · exact h.peerLeft hp hpn env

end Relay

/-- The successor handles `PeerLeft(m)` and rotates. -/
theorem Bereft.rotate {room : Room} {S : List String} {n m : String} {held : String → RoomKey}
    (h : room.Bereft S n m held) {env : Env} (hsecure : ∀ p ∈ S, p ≠ n → p ∈ env.sessions) :
    Relay S n m held (nextKey (held n) n env.random)
      (room.step (.turn n (env, .signal (.peerLeft m))), []) := by
  have hseat := seat_informed h.gone (h.seat n h.mem)
  have hauth : ((room.node n).informed (.peerLeft m)).authority = true :=
    hseat.authority_iff.mpr fun p hp => h.least p hp.1 hp.2
  set new := nextKey (held n) n env.random with hnew
  set peers := securePeerIds ((room.node n).seen (.peerLeft m)) env.sessions with hpeers
  obtain ⟨e, hturn, hcur, hwf, hme, hmem⟩ : ∃ e,
      turn (room.node n) (env, .signal (.peerLeft m)) =
        (e, peers.map fun p => (p, .roomKey new.gen new.key)) ∧
      e.keys.room.cur = some new ∧ e.keys.Wf ∧ e.meId = n ∧
      e.members = (room.node n).seen (.peerLeft m) := by
    rcases h.seat n h.mem with hseat | hseat
    · exact hseat.rotates (h.holds n h.mem) ⟨hauth, trivial⟩ env
    · exact hseat.rotates (h.holds n h.mem) ⟨hauth, trivial⟩ env
  have hstep : room.step (.turn n (env, .signal (.peerLeft m))) =
      room.act n (e, peers.map fun p => (p, .roomKey new.gen new.key)) := by
    rw [Room.step, FifoNet.step_turn, hturn]
  have hseatE : Seat e n fun p => p ∈ S ∧ p ≠ n :=
    ⟨hwf, hme, fun p => hmem ▸ hseat.members p, hmem ▸ hseat.nodup⟩
  have hmemPeers : ∀ p ∈ S, p ∈ peers ↔ p ≠ n := by
    intro p hp
    rw [hpeers, securePeerIds, List.mem_filter]
    constructor
    · exact fun hc => ((hseat.members p).mp hc.1).2
    · exact fun hpn => ⟨(hseat.members p).mpr ⟨hp, hpn⟩, by simpa using hsecure p hp hpn⟩
  rw [hstep]
  have hlink : ∀ p ∈ S, (room.act n (e, peers.map fun p =>
      (p, KeyMsg.roomKey new.gen new.key))).link n p =
        if p ≠ n then [.roomKey new.gen new.key] else [] := by
    intro p hp
    have hnodup : peers.Nodup := hseat.nodup.filter _
    rw [FifoNet.act_link_self, h.quiet n h.mem p hp, List.nil_append]
    exact (FifoNet.sentTo_map hnodup _ p).trans (if_congr (hmemPeers p hp) rfl rfl)
  refine ⟨h.mem, h.gone, h.least, h.smaller, fun p hp => ?_, ?_, fun src hsrc dst hdst hc => ?_,
    fun p hp => absurd hp List.not_mem_nil, fun p hp hpn => Or.inl ⟨?_, ?_, List.not_mem_nil⟩⟩
  · by_cases hpn : p = n
    · rw [hpn, FifoNet.act_node_self]
      exact Or.inl hseatE
    · rw [FifoNet.act_node_ne hpn]
      exact h.seat p hp
  · rw [FifoNet.act_node_self]
    exact hcur
  · by_cases hsrcn : src = n
    · have hdstn : dst = n := hc.resolve_left fun hne => hne hsrcn
      rw [hsrcn]
      exact (hlink dst hdst).trans (if_neg (not_not.mpr hdstn))
    · rw [FifoNet.act_link_ne hsrcn]
      exact h.quiet src hsrc dst hdst
  · exact (hlink p hp).trans (if_pos hpn)
  · rw [FifoNet.act_node_ne hpn]
    exact h.holds p hp

/-! ## What the keys come to -/

/-- A key above a member's, within its bound, is taken. -/
theorem heeded_of_lt {new old : RoomKey} (a : String) (hlt : old.gen < new.gen)
    (hle : new.gen ≤ U32.satAdd old.gen roomGenBound) : heeded new a old = via new a :=
  if_pos ⟨hle, (RoomKey.better_iff _ _).mpr (Or.inl hlt)⟩

/-- A key of the same generation from a larger authority is not. -/
theorem heeded_of_tie {new old : RoomKey} {a : String} (hgen : new.gen = old.gen)
    (hauth : old.auth ≤ a) : heeded new a old = old := by
  refine if_neg fun hsup => ?_
  rcases (RoomKey.better_iff _ _).mp hsup.2 with hlt | ⟨-, hlt⟩
  · exact absurd hlt (not_lt.mpr hgen.le)
  · exact absurd hlt (not_lt.mpr hauth)

theorem nextKey_of_lt {k : RoomKey} (h : k.gen < U32.maxValue) (id : String) (random : Key) :
    nextKey k id random = ⟨U32.satAdd k.gen 1, id, random⟩ := if_pos h

/-- The members that `m` reached hold its last key. -/
theorem heeded_nextKey {k : RoomKey} {m : String} (hauth : k.auth ≤ m) (random : Key) :
    heeded (nextKey k m random) m k = nextKey k m random := by
  by_cases hlt : k.gen < U32.maxValue
  · rw [nextKey_of_lt hlt]
    exact heeded_of_lt m (U32.lt_satAdd_one hlt) (U32.satAdd_mono le_rfl (by decide))
  · rw [nextKey, if_neg hlt]
    exact heeded_of_tie rfl hauth

/-- The survivors after the last rotation of `m`. -/
theorem Settled.bereft {room : Room} {ids : List String} {m : String} {k : RoomKey}
    (h : room.Settled ids m k) {S : List String} (hS : ∀ p, p ∈ S ↔ p ∈ ids ∧ p ≠ m) {n : String}
    (hn : n ∈ S) (hleast : ∀ s ∈ S, s ≠ n → n < s) {env : Env}
    (hsecure : ∀ p ∈ S, p ∈ env.sessions) {D : List String} (hD : ∀ d ∈ D, d ∈ S) :
    (lastRotation room m env D).Bereft S n m (heldAfter k m env.random D) := by
  have hb := h.broadcast_rekey env fun p hp hpm => hsecure p ((hS p).mpr ⟨hp, hpm⟩)
  have hD' : ∀ d ∈ D, d ∈ ids ∧ d ≠ m := fun d hd => (hS d).mp (hD d hd)
  obtain ⟨hrest, htold⟩ := hb.run_deliver hD' env
  have hfinal : (lastRotation room m env D).Broadcast ids m k (nextKey k m env.random) :=
    hb.run fun d hd => by
      obtain ⟨p, -, rfl⟩ := List.mem_map.mp hd
      exact ⟨p, env, rfl⟩
  refine ⟨hn, fun hm => ((hS m).mp hm).2 rfl, hleast, fun s hs => ?_, fun s hs => Or.inr ?_,
    fun s hs => ?_, fun src hsrc dst _ => ?_⟩
  · exact h.least s ((hS s).mp hs).1 ((hS s).mp hs).2
  · have hseat := hfinal.seated s ((hS s).mp hs).1
    refine ⟨hseat.wf, hseat.meId, fun p => ?_, hseat.nodup⟩
    rw [hseat.members, hS]
    constructor
    · exact fun hp => or_iff_not_imp_left.mpr fun hpm => ⟨⟨hp.1, hpm⟩, hp.2⟩
    · rintro (rfl | hp)
      · exact ⟨h.mem, ((hS s).mp hs).2.symm⟩
      · exact ⟨hp.1.1, hp.2⟩
  · by_cases hsD : s ∈ D
    · rw [heldAfter, if_pos hsD, ← heeded_nextKey hfinal.auth_le]
      exact htold s hsD
    · rw [heldAfter, if_neg hsD]
      have hnode : (room.step (.turn m (env, .signal .rekey))).node s = room.node s :=
        FifoNet.act_node_ne ((hS s).mp hs).2 _
      have hcur := h.holds s ((hS s).mp hs).1
      rw [← hnode, ← hrest s hsD] at hcur
      exact hcur
  · by_contra hne
    exact ((hS src).mp hsrc).2 (hfinal.elsewhere src dst hne).1

/-- Once nothing is in flight, what a survivor other than the successor holds. -/
theorem Relay.survivor_of_quiet {S : List String} {n m : String} {held : String → RoomKey}
    {new : RoomKey} {s : Room × List String} (h : Relay S n m held new s)
    (hquiet : s.1.QuietAmong S) {p : String} (hp : p ∈ S) (hpn : p ≠ n) :
    (s.1.node p).keys.room.cur =
      some (if p ∈ s.2 then held p else heeded new n (held p)) := by
  rcases h.survivor p hp hpn with ⟨hlink, -⟩ | ⟨-, hcur⟩
  · have hnone := hquiet n h.mem p hp
    rw [hlink] at hnone
    exact absurd hnone (List.cons_ne_nil _ _)
  · exact hcur

/-- The survivors agree exactly when each of them ended up with the successor's key. -/
theorem Relay.agree_iff {S : List String} {n m : String} {held : String → RoomKey}
    {new : RoomKey} {s : Room × List String} (h : Relay S n m held new s)
    (hquiet : s.1.QuietAmong S) :
    s.1.Agree S ↔
      ∀ p ∈ S, p ≠ n → (if p ∈ s.2 then held p else heeded new n (held p)) = new := by
  constructor
  · rintro ⟨k, hk⟩ p hp hpn
    have hnew := h.successor.symm.trans (hk n h.mem)
    have hp' := (h.survivor_of_quiet hquiet hp hpn).symm.trans (hk p hp)
    exact Option.some.inj (hp'.trans hnew.symm)
  · intro hall
    refine ⟨new, fun p hp => ?_⟩
    by_cases hpn : p = n
    · rw [hpn]
      exact h.successor
    · rw [h.survivor_of_quiet hquiet hp hpn, hall p hp hpn]

/-- Nobody missed the key exactly when `missed` is empty. -/
theorem Relay.missed_eq_nil_iff {S : List String} {n m : String} {held : String → RoomKey}
    {new : RoomKey} {s : Room × List String} (h : Relay S n m held new s) :
    s.2 = [] ↔ ∀ p ∈ S, p ≠ n → p ∉ s.2 := by
  refine ⟨fun hnil p _ _ hp => absurd (hnil ▸ hp) List.not_mem_nil, fun hall => ?_⟩
  refine List.eq_nil_iff_forall_not_mem.mpr fun p hp => ?_
  exact hall p (h.missed p hp).1 (h.missed p hp).2 hp

/-- The survivor `p` ends up with the key of the successor `n`: `m` rotated from `k` with `random`,
`n` from what it then held with `random'`. -/
def Follows (k : RoomKey) (m n : String) (random random' : Key) (D missed : List String)
    (p : String) : Prop :=
  (if p ∈ missed then heldAfter k m random D p
    else heeded (nextKey (heldAfter k m random D n) n random') n (heldAfter k m random D p)) =
  nextKey (heldAfter k m random D n) n random'

section Follows

variable {S D missed : List String} {n m p : String} {k : RoomKey} {random random' : Key}

/-- With the counter exhausted nobody moves. -/
theorem follows_of_exhausted (hmn : m < n) (hauth : k.auth ≤ m) (hmax : k.gen = U32.maxValue) :
    Follows k m n random random' D missed p := by
  have hnext : ∀ id random, nextKey k id random = k := fun id random => if_neg hmax.ge.not_gt
  have hheld : ∀ p, heldAfter k m random D p = k := fun p => by rw [heldAfter, hnext, ite_self]
  rw [Follows, hheld, hheld, hnext, heeded_of_tie rfl (hauth.trans hmn.le), ite_self]

/-- A successor that got the last key mints above it, and whoever hears of that in time follows. -/
theorem follows_iff_of_reached (hlt : k.gen < U32.maxValue) (hnD : n ∈ D)
    (hfull : U32.satAdd k.gen 1 < U32.maxValue) :
    Follows k m n random random' D missed p ↔ p ∉ missed := by
  have hlast : nextKey k m random = ⟨U32.satAdd k.gen 1, m, random⟩ := nextKey_of_lt hlt m random
  have hgen' := U32.lt_satAdd_one hfull
  have hheldN : heldAfter k m random D n = ⟨U32.satAdd k.gen 1, m, random⟩ := by
    rw [heldAfter, if_pos hnD, hlast]
  have hold : (heldAfter k m random D p).gen < U32.satAdd (U32.satAdd k.gen 1) 1 ∧
      U32.satAdd (U32.satAdd k.gen 1) 1 ≤
        U32.satAdd (heldAfter k m random D p).gen roomGenBound := by
    by_cases hpD : p ∈ D
    · rw [heldAfter, if_pos hpD, hlast]
      exact ⟨hgen', U32.satAdd_mono le_rfl (by decide)⟩
    · rw [heldAfter, if_neg hpD]
      refine ⟨(U32.lt_satAdd_one hlt).trans hgen', Fin.le_def.mpr ?_⟩
      rw [U32.val_satAdd, U32.val_satAdd, U32.val_satAdd]
      have hb : roomGenBound = 1024 := rfl
      omega
  rw [Follows, hheldN, nextKey_of_lt hfull, heeded_of_lt n hold.1 hold.2]
  by_cases hp : p ∈ missed
  · rw [if_pos hp]
    refine iff_of_false (fun heq => ?_) (not_not.mpr hp)
    have hlt' := hold.1
    rw [heq] at hlt'
    exact lt_irrefl _ hlt'
  · rw [if_neg hp]
    exact iff_of_true rfl hp

/-- When the last key ends the counter its successor can only hand it on, and that is turned down by
those who have not got it. -/
theorem follows_iff_of_last (hmn : m < n) (hlt : k.gen < U32.maxValue) (hnD : n ∈ D)
    (hmax : U32.satAdd k.gen 1 = U32.maxValue) :
    Follows k m n random random' D missed p ↔ p ∈ D := by
  have hlast : nextKey k m random = ⟨U32.satAdd k.gen 1, m, random⟩ := nextKey_of_lt hlt m random
  have hgen : k.gen < U32.satAdd k.gen 1 := U32.lt_satAdd_one hlt
  have hsame : nextKey ⟨U32.satAdd k.gen 1, m, random⟩ n random' =
      ⟨U32.satAdd k.gen 1, m, random⟩ := if_neg hmax.ge.not_gt
  have hheldN : heldAfter k m random D n = ⟨U32.satAdd k.gen 1, m, random⟩ := by
    rw [heldAfter, if_pos hnD, hlast]
  rw [Follows, hheldN, hsame]
  by_cases hpD : p ∈ D
  · rw [heldAfter, if_pos hpD, hlast, heeded_of_tie rfl hmn.le, ite_self]
    exact iff_of_true rfl hpD
  · rw [heldAfter, if_neg hpD]
    refine iff_of_false (fun heq => ?_) hpD
    by_cases hp : p ∈ missed
    · rw [if_pos hp] at heq
      exact hgen.ne (congrArg RoomKey.gen heq)
    · -- it arrives from `n`, and so not as the key that `m` minted
      rw [if_neg hp, heeded_of_lt n hgen (U32.satAdd_mono le_rfl (by decide))] at heq
      exact hmn.ne (congrArg RoomKey.auth heq).symm

/-- A successor that did not get the last key mints at its generation, and loses every tie. -/
theorem follows_iff_of_unreached (hmn : m < n) (hlt : k.gen < U32.maxValue) (hnD : n ∉ D) :
    Follows k m n random random' D missed p ↔ p ∉ D ∧ p ∉ missed := by
  have hgen : k.gen < U32.satAdd k.gen 1 := U32.lt_satAdd_one hlt
  have hheldN : heldAfter k m random D n = k := if_neg hnD
  rw [Follows, hheldN, nextKey_of_lt hlt]
  by_cases hpD : p ∈ D
  · rw [heldAfter, if_pos hpD, nextKey_of_lt hlt]
    refine iff_of_false (fun heq => ?_) fun hc => hc.1 hpD
    have htie : heeded ⟨U32.satAdd k.gen 1, n, random'⟩ n ⟨U32.satAdd k.gen 1, m, random⟩ =
        ⟨U32.satAdd k.gen 1, m, random⟩ := heeded_of_tie rfl hmn.le
    rw [htie, ite_self] at heq
    exact hmn.ne (congrArg RoomKey.auth heq)
  · rw [heldAfter, if_neg hpD, and_iff_right hpD]
    by_cases hp : p ∈ missed
    · rw [if_pos hp]
      exact iff_of_false (fun heq => hgen.ne (congrArg RoomKey.gen heq)) (not_not.mpr hp)
    · rw [if_neg hp]
      refine iff_of_true ?_ hp
      exact heeded_of_lt n hgen (U32.satAdd_mono le_rfl (by decide))

/-- Which handovers end in agreement, read off the keys. -/
theorem keys_agree_iff (hmn : m < n) (hauth : k.auth ≤ m) (hD : ∀ d ∈ D, d ∈ S)
    (hmissed : missed = [] ↔ ∀ p ∈ S, p ≠ n → p ∉ missed) :
    (∀ p ∈ S, p ≠ n → Follows k m n random random' D missed p) ↔
    k.gen = U32.maxValue ∨
      (n ∈ D ∧ U32.satAdd k.gen 1 = U32.maxValue ∧ ∀ p ∈ S, p ∈ D) ∨
      (((n ∈ D ∧ U32.satAdd k.gen 1 < U32.maxValue) ∨ D = []) ∧ missed = []) := by
  rcases (U32.le_maxValue k.gen).eq_or_lt with hmax | hlt
  · exact iff_of_true (fun p _ _ => follows_of_exhausted hmn hauth hmax) (Or.inl hmax)
  rw [or_iff_right hlt.ne]
  by_cases hnD : n ∈ D
  · have hDne : D ≠ [] := List.ne_nil_of_mem hnD
    rcases (U32.le_maxValue (U32.satAdd k.gen 1)).eq_or_lt with hmax | hfull
    · simp only [follows_iff_of_last hmn hlt hnD hmax]
      rw [or_iff_left fun hc => hc.1.elim (fun hc => hc.2.ne hmax) hDne, and_iff_right hnD,
        and_iff_right hmax]
      refine forall₂_congr fun p _ => ⟨fun h => ?_, fun hp _ => hp⟩
      by_cases hpn : p = n
      · exact hpn ▸ hnD
      · exact h hpn
    · simp only [follows_iff_of_reached hlt hnD hfull]
      rw [or_iff_right fun hc => hfull.ne hc.2.1, and_iff_right (Or.inl ⟨hnD, hfull⟩), hmissed]
  · simp only [follows_iff_of_unreached hmn hlt hnD]
    rw [or_iff_right fun hc => hnD hc.1, or_iff_right fun hc => hnD hc.1, hmissed]
    constructor
    · refine fun hall => ⟨?_, fun p hp hpn => (hall p hp hpn).2⟩
      refine List.eq_nil_iff_forall_not_mem.mpr fun d hd => ?_
      exact (hall d (hD d hd) fun heq => hnD (heq ▸ hd)).1 hd
    · rintro ⟨rfl, hnone⟩ p hp hpn
      exact ⟨List.not_mem_nil, hnone p hp hpn⟩

end Follows

/-- In a room that agrees on `k` let the authority `m` rotate, let its key reach the members `D`,
and let `m` leave.  The survivors handle `PeerLeft(m)` and are delivered the key of the smallest of
them, `n`, in any order.  They agree in the end exactly when `n` itself had got `m`'s last key, or
nobody had, and no survivor is delivered `n`'s key before it has handled `PeerLeft(m)`; at the end
of the generation counter they agree if everybody had got the last key, or there was none. -/
theorem handover_agrees_iff {room : Room} {ids : List String} {m : String} {k : RoomKey}
    (h : room.Settled ids m k) {S : List String} (hS : ∀ p, p ∈ S ↔ p ∈ ids ∧ p ≠ m) {n : String}
    (hn : n ∈ S) (hleast : ∀ s ∈ S, s ≠ n → n < s) {last : Env}
    (hlast : ∀ p ∈ S, p ∈ last.sessions) {D : List String} (hD : ∀ d ∈ D, d ∈ S)
    {before after : List RoomEvent} (hbefore : ∀ ev ∈ before, Aside S n m ev)
    (hafter : ∀ ev ∈ after, Aside S n m ev) {env : Env}
    (hsecure : ∀ p ∈ S, p ≠ n → p ∈ env.sessions)
    (hquiet : (StepRun.run step (lastRotation room m last D)
      (before ++ .turn n (env, .signal (.peerLeft m)) :: after)).QuietAmong S) :
    (StepRun.run step (lastRotation room m last D)
      (before ++ .turn n (env, .signal (.peerLeft m)) :: after)).Agree S ↔
    k.gen = U32.maxValue ∨
      (n ∈ D ∧ U32.satAdd k.gen 1 = U32.maxValue ∧ ∀ p ∈ S, p ∈ D) ∨
      (((n ∈ D ∧ U32.satAdd k.gen 1 < U32.maxValue) ∨ D = []) ∧
        StepRun.EveryStep step (Informed m) (lastRotation room m last D)
          (before ++ .turn n (env, .signal (.peerLeft m)) :: after)) := by
  have hstart := h.bereft hS hn hleast hlast hD
  -- up to the successor's rotation nothing is delivered
  have hstepB : ∀ (r : Room) (ev : RoomEvent), r.Bereft S n m (heldAfter k m last.random D) →
      Aside S n m ev → (r.step ev).Bereft S n m (heldAfter k m last.random D) :=
    fun _ _ hr hev => hr.step hev
  have hbereft := StepRun.run_invariant hstepB hstart (StepRun.everyStep_of_forall hbefore)
  have hinformed : StepRun.EveryStep step (Informed m) (lastRotation room m last D) before := by
    refine StepRun.everyStep_of_invariant hstepB (fun r ev hr hev => ?_) hstart
      (StepRun.everyStep_of_forall hbefore)
    cases ev with
    | turn i input => trivial
    | deliver src dst env => exact fun hne => absurd (hr.quiet src hev.1 dst hev.2) hne
  -- from there on the relay runs
  set mid := StepRun.run step (lastRotation room m last D) before with hmid
  have hrotated := hbereft.rotate hsecure
  have hstepR : ∀ (s : Room × List String) (ev : RoomEvent),
      Relay S n m (heldAfter k m last.random D)
        (nextKey (heldAfter k m last.random D n) n env.random) s →
      Aside S n m ev → Relay S n m (heldAfter k m last.random D)
        (nextKey (heldAfter k m last.random D n) n env.random) (watched m s ev) :=
    fun _ _ hr hev => hr.step hev
  have hrelay := StepRun.run_invariant hstepR hrotated (StepRun.everyStep_of_forall hafter)
  have hfst := StepRun.run_logged_fst (fun room ev => (Room.step room ev, missedBy m room ev))
    (mid.step (.turn n (env, .signal (.peerLeft m))), []) after
  have hsplit : StepRun.run step (lastRotation room m last D)
      (before ++ .turn n (env, .signal (.peerLeft m)) :: after) =
      (StepRun.run (watched m) (mid.step (.turn n (env, .signal (.peerLeft m))), []) after).1 := by
    rw [StepRun.run_append]
    exact hfst.symm
  have hmissedNil := StepRun.run_logged_snd_eq_nil_iff
    (fun room ev => (Room.step room ev, missedBy m room ev))
    (mid.step (.turn n (env, .signal (.peerLeft m)))) after
  have hwhole : StepRun.EveryStep step (Informed m) (lastRotation room m last D)
      (before ++ .turn n (env, .signal (.peerLeft m)) :: after) ↔
      (StepRun.run (watched m) (mid.step (.turn n (env, .signal (.peerLeft m))), []) after).2 =
        [] := by
    rw [StepRun.everyStep_append, and_iff_right hinformed, StepRun.everyStep_cons,
      and_iff_right (show Informed m mid (.turn n (env, .signal (.peerLeft m))) from trivial)]
    refine Iff.trans ?_ hmissedNil.symm
    exact StepRun.everyStep_congr (fun r ev => (missedBy_eq_nil_iff m r ev).symm) _ _
  rw [hsplit] at hquiet ⊢
  have hauth : k.auth ≤ m := by
    have hseat := h.seated m h.mem
    exact hseat.meId ▸ hseat.wf.auth_le k (h.holds m h.mem)
  rw [hrelay.agree_iff hquiet, hwhole]
  exact keys_agree_iff (hbereft.smaller n hn) hauth hD hrelay.missed_eq_nil_iff

/-- "m", "n" and "r" share the key of generation 1. -/
def trioKey : RoomKey := ⟨1, "m", Vector.replicate 32 1⟩

theorem settled_trio :
    (gathered ["m", "n", "r"] fun _ => some trioKey).Settled ["m", "n", "r"] "m" trioKey :=
  settled_gathered (by decide) (by decide) (by decide) (by decide)

theorem survivors_trio (p : String) : p ∈ ["n", "r"] ↔ p ∈ ["m", "n", "r"] ∧ p ≠ "m" := by
  have hn : "n" ≠ "m" := by decide
  have hr : "r" ≠ "m" := by decide
  simp only [List.mem_cons, List.not_mem_nil, or_false]
  constructor
  · rintro (rfl | rfl)
    · exact ⟨Or.inr (Or.inl rfl), hn⟩
    · exact ⟨Or.inr (Or.inr rfl), hr⟩
  · rintro ⟨hp, hpm⟩
    exact hp.resolve_left hpm

/-- "m" reaches both survivors with its last key and leaves; "r" hears of that first: "n" and "r"
agree on generation 3. -/
theorem handover_agrees_when_reached :
    (StepRun.run step (lastRotation (gathered ["m", "n", "r"] fun _ => some trioKey) "m"
        ⟨["n", "r"], Vector.replicate 32 2⟩ ["n", "r"])
      ([.turn "r" (⟨[], Vector.replicate 32 0⟩, .signal (.peerLeft "m"))] ++
        .turn "n" (⟨["r"], Vector.replicate 32 3⟩, .signal (.peerLeft "m")) ::
          [.deliver "n" "r" ⟨[], Vector.replicate 32 0⟩])).Agree ["n", "r"] :=
  (handover_agrees_iff settled_trio survivors_trio (by decide) (by decide) (by decide) (by decide)
    (by decide) (by decide) (by decide) (by decide)).mpr
      (Or.inr (Or.inr ⟨Or.inl ⟨by decide, by decide⟩, by decide⟩))

/-- "m" reaches "r" alone with its last key, and leaves: "n" mints the same generation 2, which "r"
turns down. -/
theorem handover_splits_room :
    ¬∀ (room : Room) (ids : List String) (m : String) (k : RoomKey) (S : List String) (n : String)
      (last : Env) (D : List String) (before after : List RoomEvent) (env : Env),
      room.Settled ids m k → (∀ p, p ∈ S ↔ p ∈ ids ∧ p ≠ m) → n ∈ S →
      (∀ s ∈ S, s ≠ n → n < s) → (∀ p ∈ S, p ∈ last.sessions) → (∀ d ∈ D, d ∈ S) →
      (∀ ev ∈ before, Aside S n m ev) → (∀ ev ∈ after, Aside S n m ev) →
      (∀ p ∈ S, p ≠ n → p ∈ env.sessions) →
      (∀ s ∈ S, s ≠ n → ∃ env, .turn s (env, .signal (.peerLeft m)) ∈ before ++ after) →
      (StepRun.run step (lastRotation room m last D)
        (before ++ .turn n (env, .signal (.peerLeft m)) :: after)).QuietAmong S →
      (StepRun.run step (lastRotation room m last D)
        (before ++ .turn n (env, .signal (.peerLeft m)) :: after)).Agree S := by
  intro h
  have hhandled : ∀ s ∈ ["n", "r"], s ≠ "n" → ∃ env : Env,
      .turn s (env, .signal (.peerLeft "m")) ∈
        [(.turn "r" (⟨[], Vector.replicate 32 0⟩, .signal (.peerLeft "m")) : RoomEvent)] ++
          [.deliver "n" "r" ⟨[], Vector.replicate 32 0⟩] := by
    intro s hs hsn
    obtain rfl : s = "r" := by simpa [hsn] using hs
    exact ⟨_, List.mem_cons_self⟩
  obtain ⟨k, hk⟩ := h _ _ _ _ _ _ ⟨["n", "r"], Vector.replicate 32 2⟩ ["r"] _ _
    ⟨["r"], Vector.replicate 32 3⟩ settled_trio survivors_trio (by decide) (by decide) (by decide)
    (by decide) (by decide) (by decide) (by decide) hhandled (by decide)
  have hsame := (hk "n" (by decide)).trans (hk "r" (by decide)).symm
  exact absurd hsame (by decide)

end Subraum.Keys.Room
