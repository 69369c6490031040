import Subraum.Keys.Room

/-!
# One step of the authority

In a room that agrees on a key, the authority handles one event and everything it sends is
delivered.  `agree_after_authority_turn_iff` says when the room agrees again: the only way out of
agreement is an announcement exactly `ROOM_GEN_BOUND` above the room, which the authority still
heeds although the key it mints in answer lies one beyond what the members accept.
-/

namespace Subraum.Keys.Room

open Crypto

/-- The smallest of `ids` is `a`, everybody sees everybody, all hold `k`, nothing is in flight. -/
structure Settled (room : Room) (ids : List String) (a : String) (k : RoomKey) : Prop where
  seated : room.Seated ids
  mem : a ∈ ids
  least : ∀ p ∈ ids, p ≠ a → a < p
  holds : ∀ id ∈ ids, (room.node id).keys.room.cur = some k
  quiet : room.Quiet

/-- The events of an authority that holds `k`: it is told to rotate, below the largest generation; a
session with a member comes up; a member announces a generation. -/
def AuthorityEvent (ids : List String) (a : String) (k : RoomKey) : Event → Prop
  | .signal .rekey => k.gen < U32.maxValue
  | .mesh (.secure p) => p ∈ ids ∧ p ≠ a
  | .mesh (.roomGen p _) => p ∈ ids ∧ p ≠ a
  | _ => False

/-- The announcement is exactly `ROOM_GEN_BOUND` above the room's generation. -/
def Overreaches (k : RoomKey) : Event → Prop
  | .mesh (.roomGen _ gen) => gen.val = k.gen.val + roomGenBound ∧ gen < U32.maxValue
  | _ => False

/-- The authority `a` holds `new` and everything in flight is `new` from it to a member; each member
still holds `old` and has `new` to come, or was offered it. -/
structure Broadcast (room : Room) (ids : List String) (a : String) (old new : RoomKey) : Prop where
  seated : room.Seated ids
  mem : a ∈ ids
  least : ∀ p ∈ ids, p ≠ a → a < p
  authority : (room.node a).keys.room.cur = some new
  auth_le : old.auth ≤ a
  inFlight : ∀ p ∈ ids, p ≠ a → ∀ m ∈ room.link a p, m = .roomKey new.gen new.key
  elsewhere : ∀ src dst, room.link src dst ≠ [] → src = a ∧ dst ∈ ids ∧ dst ≠ a
  member : ∀ p ∈ ids, p ≠ a →
    ((room.node p).keys.room.cur = some old ∧ room.link a p ≠ []) ∨
      (room.node p).keys.room.cur = some (heeded new a old)

namespace Broadcast

variable {room : Room} {ids : List String} {a : String} {old new : RoomKey}

/-- A delivery keeps a broadcast going. -/
theorem deliver (h : room.Broadcast ids a old new) (p : String) (env : Env) :
    (room.step (.deliver a p env)).Broadcast ids a old new := by
  cases hlink : room.link a p with
  | nil => rwa [step, FifoNet.step_deliver_nil hlink]
  | cons m rest =>
    obtain ⟨-, hp, hpa⟩ := h.elsewhere a p (by rw [hlink]; exact List.cons_ne_nil _ _)
    obtain rfl : m = .roomKey new.gen new.key := h.inFlight p hp hpa m (by rw [hlink]; simp)
    rw [step_deliver_roomKey hlink]
    have hseat := h.seated p hp
    have hauth : a < p ∧ ∀ q, (q ∈ ids ∧ q ≠ p) → q = a ∨ a < q :=
      ⟨h.least p hp hpa, fun q hq => or_iff_not_imp_left.mpr (h.least q hq.1)⟩
    have hself : ((room.pop a p).act p ((room.node p).offered (via new a), [])).node p =
        (room.node p).offered (via new a) := FifoNet.act_node_self p _
    have hother : ∀ q, q ≠ p →
        ((room.pop a p).act p ((room.node p).offered (via new a), [])).node q = room.node q :=
      fun q hq => FifoNet.act_node_ne hq _
    have hlinks : ∀ src dst,
        ((room.pop a p).act p ((room.node p).offered (via new a), [])).link src dst =
          (room.pop a p).link src dst := FifoNet.act_link_of_silent rfl
    refine ⟨?_, h.mem, h.least, ?_, h.auth_le, ?_, ?_, ?_⟩
    · intro id hid
      by_cases hidp : id = p
      · rw [hidp, hself]
        exact hseat.offered (via new a)
      · rw [hother id hidp]
        exact h.seated id hid
    · rw [hother a (Ne.symm hpa)]
      exact h.authority
    · intro q hq hqa m hm
      rw [hlinks] at hm
      by_cases hqp : q = p
      · rw [hqp, FifoNet.pop_link_self] at hm
        exact h.inFlight p hp hpa m (List.mem_of_mem_tail hm)
      · rw [FifoNet.pop_link_ne fun hc => hqp hc.2] at hm
        exact h.inFlight q hq hqa m hm
    · intro src dst hne
      rw [hlinks] at hne
      by_cases hsd : src = a ∧ dst = p
      · exact ⟨hsd.1, hsd.2 ▸ hp, hsd.2 ▸ hpa⟩
      · rw [FifoNet.pop_link_ne hsd] at hne
        exact h.elsewhere src dst hne
    · intro q hq hqa
      by_cases hqp : q = p
      · -- the receiver: it was offered the key now, or before and is not moved again
        subst hqp
        refine Or.inr ?_
        rw [hself]
        rcases h.member q hq hqa with ⟨hold, -⟩ | hdone
        · exact hseat.offered_cur hold hauth
        · rw [hseat.offered_cur hdone hauth]
          exact congrArg some (heeded_heeded new a old)
      · rw [hother q hqp, hlinks, FifoNet.pop_link_ne fun hc => hqp hc.2]
        exact h.member q hq hqa

/-- After a delivery its receiver has been offered the key. -/
theorem cur_deliver (h : room.Broadcast ids a old new) {p : String} (hp : p ∈ ids) (hpa : p ≠ a)
    (env : Env) :
    ((room.step (.deliver a p env)).node p).keys.room.cur = some (heeded new a old) := by
  cases hlink : room.link a p with
  | nil =>
    rw [step, FifoNet.step_deliver_nil hlink]
    exact (h.member p hp hpa).resolve_left fun hc => hc.2 hlink
  | cons m rest =>
    obtain rfl := h.inFlight p hp hpa m (by rw [hlink]; exact List.mem_cons_self)
    rw [step_deliver_roomKey hlink, FifoNet.act_node_self]
    have hauth : a < p ∧ ∀ q, (q ∈ ids ∧ q ≠ p) → q = a ∨ a < q :=
      ⟨h.least p hp hpa, fun q hq => or_iff_not_imp_left.mpr (h.least q hq.1)⟩
    rcases h.member p hp hpa with ⟨hold, -⟩ | hdone
    · exact (h.seated p hp).offered_cur hold hauth
    · rw [(h.seated p hp).offered_cur hdone hauth]
      exact congrArg some (heeded_heeded new a old)

/-- A delivery to `p` leaves the other nodes alone. -/
theorem node_deliver (h : room.Broadcast ids a old new) {p q : String} (hqp : q ≠ p) (env : Env) :
    (room.step (.deliver a p env)).node q = room.node q := by
  cases hlink : room.link a p with
  | nil => rw [step, FifoNet.step_deliver_nil hlink]
  | cons m rest =>
    obtain ⟨-, hp, hpa⟩ := h.elsewhere a p (by rw [hlink]; exact List.cons_ne_nil _ _)
    obtain rfl := h.inFlight p hp hpa m (by rw [hlink]; exact List.mem_cons_self)
    rw [step_deliver_roomKey hlink, FifoNet.act_node_ne hqp]
    rfl

/-- Deliveries to the members `D` offer the key to these and leave the others alone. -/
theorem run_deliver (h : room.Broadcast ids a old new) {D : List String}
    (hD : ∀ d ∈ D, d ∈ ids ∧ d ≠ a) (env : Env) :
    (∀ q, q ∉ D → (StepRun.run step room (D.map fun d => .deliver a d env)).node q =
        room.node q) ∧
      ∀ q ∈ D, ((StepRun.run step room (D.map fun d => .deliver a d env)).node q).keys.room.cur =
        some (heeded new a old) := by
  induction D generalizing room with
  | nil => exact ⟨fun _ _ => rfl, fun q hq => absurd hq List.not_mem_nil⟩
  | cons d D ih =>
    obtain ⟨hd, hda⟩ := hD d List.mem_cons_self
    obtain ⟨hrest, htold⟩ := ih (h.deliver d env) fun d hd => hD d (List.mem_cons_of_mem _ hd)
    refine ⟨fun q hq => ?_, fun q hq => ?_⟩
    · have hqd : q ≠ d := fun heq => hq (heq ▸ List.mem_cons_self)
      exact (hrest q fun hqD => hq (List.mem_cons_of_mem _ hqD)).trans (h.node_deliver hqd env)
    · by_cases hqD : q ∈ D
      · exact htold q hqD
      · obtain rfl : q = d := (List.mem_cons.mp hq).resolve_right hqD
        have hnode := hrest q hqD
        change ((StepRun.run step (room.step (.deliver a q env))
          (D.map fun d => .deliver a d env)).node q).keys.room.cur = _
        rw [hnode]
        exact h.cur_deliver hd hda env

/-- Deliveries in any order keep a broadcast going. -/
theorem run (h : room.Broadcast ids a old new) {ds : List RoomEvent}
    (hds : ∀ d ∈ ds, ∃ p env, d = .deliver a p env) :
    (StepRun.run step room ds).Broadcast ids a old new := by
  induction ds generalizing room with
  | nil => exact h
  | cons d ds ih =>
    obtain ⟨p, env, rfl⟩ := hds d List.mem_cons_self
    exact ih (h.deliver p env) fun d hd => hds d (List.mem_cons_of_mem _ hd)

/-- When nothing is left in flight, every member has been offered the key. -/
theorem member_of_quiet (h : room.Broadcast ids a old new) (hquiet : room.QuietAmong ids)
    {p : String} (hp : p ∈ ids) (hpa : p ≠ a) :
    (room.node p).keys.room.cur = some (heeded new a old) := by
  rcases h.member p hp hpa with ⟨-, hne⟩ | hdone
  · exact absurd (hquiet a h.mem p hp) hne
  · exact hdone

end Broadcast

/-! ## The authority's turn -/

namespace Settled

variable {room : Room} {ids : List String} {a : String} {k : RoomKey}

theorem authority (h : room.Settled ids a k) : (room.node a).authority = true :=
  (h.seated a h.mem).authority_iff.mpr fun p hp => h.least p hp.1 hp.2

/-- After the authority's turn, when it moved on to `new` and told every member that has to know. -/
theorem broadcast (h : room.Settled ids a k) {new : RoomKey} {e : Engine}
    {out : List (String × KeyMsg)} {input : Env × Event}
    (hturn : turn (room.node a) input = (e, out))
    (hseat : Seat e a fun p => p ∈ ids ∧ p ≠ a) (hcur : e.keys.room.cur = some new)
    (hout : ∀ o ∈ out, (o.1 ∈ ids ∧ o.1 ≠ a) ∧ o.2 = .roomKey new.gen new.key)
    (htold : ∀ p ∈ ids, p ≠ a → (∃ m, (p, m) ∈ out) ∨ ¬Supersedes (via new a) k) :
    (room.step (.turn a input)).Broadcast ids a k new := by
  have hstep : room.step (.turn a input) = room.act a (e, out) := by
    rw [step, FifoNet.step_turn, hturn]
  have hlink : ∀ src dst, (room.act a (e, out)).link src dst =
      if src = a then FifoNet.sentTo out dst else [] := by
    intro src dst
    by_cases hsrc : src = a
    · rw [hsrc, FifoNet.act_link_self, h.quiet, List.nil_append, if_pos rfl]
    · rw [FifoNet.act_link_ne hsrc, h.quiet, if_neg hsrc]
  rw [hstep]
  refine ⟨fun id hid => ?_, h.mem, h.least, ?_, ?_, fun p _ _ m hm => ?_, ?_, fun p hp hpa => ?_⟩
  · by_cases hida : id = a
    · rw [hida, FifoNet.act_node_self]
      exact hseat
    · rw [FifoNet.act_node_ne hida]
      exact h.seated id hid
  · rw [FifoNet.act_node_self]
    exact hcur
  · have hseat₀ := h.seated a h.mem
    exact hseat₀.meId ▸ hseat₀.wf.auth_le k (h.holds a h.mem)
  · rw [hlink, if_pos rfl] at hm
    exact (hout _ (FifoNet.mem_sentTo.mp hm)).2
  · intro src dst hne
    rw [hlink] at hne
    by_cases hsrc : src = a
    · rw [if_pos hsrc] at hne
      obtain ⟨m, hm⟩ := List.exists_mem_of_ne_nil _ hne
      exact ⟨hsrc, (hout _ (FifoNet.mem_sentTo.mp hm)).1⟩
    · exact absurd (if_neg hsrc) hne
  · rw [FifoNet.act_node_ne hpa, hlink, if_pos rfl]
    rcases htold p hp hpa with ⟨m, hm⟩ | hsup
    · exact Or.inl ⟨h.holds p hp, List.ne_nil_of_mem (FifoNet.mem_sentTo.mpr hm)⟩
    · exact Or.inr (by rw [heeded, if_neg hsup]; exact h.holds p hp)

/-- The key the members already hold supersedes nothing. -/
theorem not_supersedes (h : room.Settled ids a k) : ¬Supersedes (via k a) k := by
  rintro ⟨-, hbetter⟩
  have hseat := h.seated a h.mem
  have hauth : k.auth ≤ a := hseat.meId ▸ hseat.wf.auth_le k (h.holds a h.mem)
  rcases (RoomKey.better_iff _ _).mp hbetter with hlt | ⟨-, hlt⟩
  · exact absurd hlt (lt_irrefl _)
  · exact absurd hlt (not_lt.mpr hauth)

/-- The authority keeps its key. -/
theorem broadcast_same (h : room.Settled ids a k) (out : List (String × KeyMsg))
    {input : Env × Event} (hturn : turn (room.node a) input = (room.node a, out))
    (hout : ∀ o ∈ out, (o.1 ∈ ids ∧ o.1 ≠ a) ∧ o.2 = .roomKey k.gen k.key) :
    (room.step (.turn a input)).Broadcast ids a k k :=
  h.broadcast hturn (h.seated a h.mem) (h.holds a h.mem) hout fun _ _ _ =>
    Or.inr h.not_supersedes

/-- The authority mints `new` and hands it to every secure member. -/
theorem broadcast_mint (h : room.Settled ids a k) {gen : U32} {env : Env} {ev : Event}
    (hsecure : ∀ p ∈ ids, p ≠ a → p ∈ env.sessions) (hgen : k.gen < gen)
    (hturn : turn (room.node a) (env, ev) =
      ((room.node a).take ⟨gen, (room.node a).meId, env.random⟩,
        (securePeerIds (room.node a).members env.sessions).map fun id =>
          (id, .roomKey gen env.random))) :
    (room.step (.turn a (env, ev))).Broadcast ids a k ⟨gen, a, env.random⟩ := by
  have hseat := h.seated a h.mem
  rw [hseat.meId] at hturn
  have hgen' : (room.node a).keys.roomGen = k.gen := hseat.wf.roomGen_of_cur (h.holds a h.mem)
  have hnew : Seat ((room.node a).take ⟨gen, a, env.random⟩) a fun p => p ∈ ids ∧ p ≠ a :=
    ⟨Coordinator.wf_taken (hgen' ▸ hgen.le) hseat.meId.ge, hseat.meId, hseat.members,
      hseat.nodup⟩
  refine h.broadcast hturn hnew (Engine.take_cur _) ?_ fun p hp hpa =>
    Or.inl ⟨.roomKey gen env.random, ?_⟩
  · intro o ho
    obtain ⟨p, hp, rfl⟩ := List.mem_map.mp ho
    exact ⟨(hseat.members p).mp (List.mem_of_mem_filter hp), rfl⟩
  · refine List.mem_map.mpr ⟨p, ?_, rfl⟩
    have hmem : p ∈ (room.node a).members := (hseat.members p).mpr ⟨hp, hpa⟩
    simp [securePeerIds, hmem, hsecure p hp hpa]

/-- The authority rotates and hands its key to every secure member. -/
theorem broadcast_rekey (h : room.Settled ids a k) (env : Env)
    (hsecure : ∀ p ∈ ids, p ≠ a → p ∈ env.sessions) :
    (room.step (.turn a (env, .signal .rekey))).Broadcast ids a k (nextKey k a env.random) := by
  have hseat := h.seated a h.mem
  have hrot : (room.node a).Rotates .rekey := ⟨h.authority, trivial⟩
  obtain ⟨e, hturn, hcur, hwf, hme, hmem⟩ :=
    hseat.rotates (h.holds a h.mem) hrot env
  have hnew : Seat e a fun p => p ∈ ids ∧ p ≠ a :=
    ⟨hwf, hme, fun p => hmem ▸ hseat.members p, hmem ▸ hseat.nodup⟩
  refine h.broadcast hturn hnew hcur ?_ fun p hp hpa => Or.inl ⟨_, List.mem_map.mpr ⟨p, ?_, rfl⟩⟩
  · intro o ho
    obtain ⟨p, hp, rfl⟩ := List.mem_map.mp ho
    exact ⟨(hseat.members p).mp (List.mem_of_mem_filter hp), rfl⟩
  · have hpm : p ∈ (room.node a).members := (hseat.members p).mpr ⟨hp, hpa⟩
    have hps := hsecure p hp hpa
    exact List.mem_filter.mpr ⟨hpm, by simpa using hps⟩

/-- What an event of the authority starts: a broadcast of its old key, or of one that it minted,
which the members take unless the event overreaches. -/
theorem broadcast_of_event (h : room.Settled ids a k) {env : Env} {ev : Event}
    (hev : AuthorityEvent ids a k ev) (hsecure : ∀ p ∈ ids, p ≠ a → p ∈ env.sessions) :
    ((room.step (.turn a (env, ev))).Broadcast ids a k k ∧ ¬Overreaches k ev) ∨
      ∃ gen, k.gen < gen ∧ (room.step (.turn a (env, ev))).Broadcast ids a k ⟨gen, a, env.random⟩ ∧
        (gen ≤ U32.satAdd k.gen roomGenBound ↔ ¬Overreaches k ev) ∧
        (Overreaches k ev → ∃ p ∈ ids, p ≠ a) := by
  have hseat := h.seated a h.mem
  have hcur := h.holds a h.mem
  have hgen : (room.node a).keys.roomGen = k.gen := hseat.wf.roomGen_of_cur hcur
  match ev with
  | .signal (.roster peers) => exact hev.elim
  | .signal (.peerJoined userId) => exact hev.elim
  | .signal (.peerLeft userId) => exact hev.elim
  | .mesh (.roomKey sender gen key) => exact hev.elim
  | .promote gen => exact hev.elim
  | .signal .rekey =>
    have hlt : k.gen < U32.maxValue := hev
    have hnext : k.gen < U32.satAdd k.gen 1 := U32.lt_satAdd_one hlt
    have hrot : (room.node a).Rotates .rekey := ⟨h.authority, trivial⟩
    have hturn := Engine.turn_signal_of_rotates hseat.wf hrot (hgen.symm ▸ hlt) env
    rw [hgen] at hturn
    refine Or.inr ⟨U32.satAdd k.gen 1, hnext, h.broadcast_mint hsecure hnext hturn, ?_, False.elim⟩
    exact iff_of_true (U32.satAdd_mono le_rfl (by decide)) id
  | .mesh (.secure p) =>
    refine Or.inl ⟨h.broadcast_same _ (Engine.turn_secure_of_holds h.authority hcur env p) ?_, id⟩
    intro o ho
    obtain rfl := List.mem_singleton.mp ho
    exact ⟨hev, rfl⟩
  | .mesh (.roomGen p gen) =>
    have hval := U32.val_satAdd k.gen roomGenBound
    have hnext := U32.val_satAdd gen 1
    have hmax := U32.val_maxValue
    by_cases hheeds : (room.node a).keys.HeedsGen p gen (room.node a).members
    · have hturn := Engine.turn_roomGen_of_heeds hseat.wf hheeds env
      have hlt : k.gen < gen := hgen ▸ hheeds.2.2.1
      have hle : gen ≤ U32.satAdd k.gen roomGenBound := hgen ▸ hheeds.2.2.2
      have hmint : k.gen < U32.satAdd gen 1 := hlt.trans_le (U32.le_satAdd gen 1)
      refine Or.inr ⟨U32.satAdd gen 1, hmint, h.broadcast_mint hsecure hmint hturn, ?_,
        fun _ => ⟨p, hev⟩⟩
      -- the minted generation is one above the announced one, which is within the bound
      rw [Overreaches, Fin.le_def, Fin.lt_def]
      rw [Fin.le_def] at hle
      have := gen.isLt
      omega
    · refine Or.inl ⟨h.broadcast_same [] ?_ ?_, fun hover => hheeds ?_⟩
      · exact Engine.turn_roomGen_of_ignores hheeds env
      · exact fun o ho => absurd ho List.not_mem_nil
      · -- an announcement that overreaches is heeded
        obtain ⟨hgen', hlt⟩ := hover
        have hbound : roomGenBound = 1024 := rfl
        refine ⟨h.authority, (hseat.members p).mpr hev, ?_, ?_⟩
        · rw [hgen, Fin.lt_def]
          omega
        · rw [hgen, Fin.le_def]
          rw [Fin.lt_def] at hlt
          omega

end Settled

/-- In a room that agrees on a key, let the authority handle one event and everything it sends be
delivered, in any order.  Then the room agrees again exactly when the event is not a generation
announced exactly `ROOM_GEN_BOUND` above the room's. -/
theorem agree_after_authority_turn_iff {room : Room} {ids : List String} {a : String} {k : RoomKey}
    (h : room.Settled ids a k) {env : Env} {ev : Event} (hev : AuthorityEvent ids a k ev)
    (hsecure : ∀ p ∈ ids, p ≠ a → p ∈ env.sessions) {ds : List RoomEvent}
    (hds : ∀ d ∈ ds, ∃ p env, d = .deliver a p env)
    (hquiet : (StepRun.run step room (.turn a (env, ev) :: ds)).QuietAmong ids) :
    (StepRun.run step room (.turn a (env, ev) :: ds)).Agree ids ↔ ¬Overreaches k ev := by
  have hrun : StepRun.run step room (.turn a (env, ev) :: ds) =
      StepRun.run step (room.step (.turn a (env, ev))) ds := rfl
  rw [hrun] at hquiet ⊢
  rcases h.broadcast_of_event hev hsecure with ⟨hb, hno⟩ | ⟨gen, hlt, hb, hiff, hsome⟩
  · -- nobody moves
    have hfinal := hb.run hds
    refine iff_of_true ⟨k, fun id hid => ?_⟩ hno
    by_cases hida : id = a
    · rw [hida]
      exact hfinal.authority
    · rw [hfinal.member_of_quiet hquiet hid hida, heeded, if_neg h.not_supersedes]
  · -- the authority moves on, and each member follows if the key is within its bound
    have hfinal := hb.run hds
    have hbetter : (⟨gen, a, env.random⟩ : RoomKey).better k = true :=
      (RoomKey.better_iff _ _).mpr (Or.inl hlt)
    constructor
    · rintro ⟨k', hk'⟩ hover
      obtain ⟨p, hp, hpa⟩ := hsome hover
      have hmember := (hfinal.member_of_quiet hquiet hp hpa).symm.trans (hk' p hp)
      have hauth := hfinal.authority.symm.trans (hk' a h.mem)
      rw [heeded, if_neg fun hsup => hiff.mp hsup.1 hover] at hmember
      have heq : k = ⟨gen, a, env.random⟩ := Option.some.inj (hmember.trans hauth.symm)
      rw [heq] at hlt
      exact lt_irrefl _ hlt
    · intro hno
      refine ⟨⟨gen, a, env.random⟩, fun id hid => ?_⟩
      by_cases hida : id = a
      · rw [hida]
        exact hfinal.authority
      · rw [hfinal.member_of_quiet hquiet hid hida, heeded, if_pos ⟨hiff.mpr hno, hbetter⟩]
        rfl

theorem settled_gathered {ids : List String} {a : String} {k : RoomKey} (hids : ids.Nodup)
    (hmem : a ∈ ids)
    (hleast : ∀ p ∈ ids, p ≠ a → a < p) (hauth : k.auth ≤ a) :
    (gathered ids fun _ => some k).Settled ids a k where
  seated := seated_gathered hids fun id hid k' hk' => by
    rw [← Option.some.inj hk']
    by_cases hida : id = a
    · rwa [hida]
    · exact hauth.trans (hleast id hid hida).le
  mem := hmem
  least := hleast
  holds id _ := gathered_cur ids _ id
  quiet _ _ := rfl

/-- "a" and "b" share the key of generation 1. -/
def pairKey : RoomKey := ⟨1, "a", Vector.replicate 32 1⟩

theorem settled_pair : (gathered ["a", "b"] fun _ => some pairKey).Settled ["a", "b"] "a" pairKey :=
  settled_gathered (by decide) (by decide) (by decide) (by decide)

/-- "b" announces generation 7: "a" mints generation 8 and the two agree on it. -/
theorem agree_after_announcement :
    (StepRun.run step (gathered ["a", "b"] fun _ => some pairKey)
      [.turn "a" (⟨["b"], Vector.replicate 32 2⟩, .mesh (.roomGen "b" 7)),
        .deliver "a" "b" ⟨[], Vector.replicate 32 0⟩]).Agree ["a", "b"] := by
  have hev : AuthorityEvent ["a", "b"] "a" pairKey (.mesh (.roomGen "b" 7)) :=
    ⟨by decide, by decide⟩
  have hds : ∀ d ∈ [(.deliver "a" "b" ⟨[], Vector.replicate 32 0⟩ : RoomEvent)],
      ∃ p env, d = .deliver "a" p env := by simp
  exact (agree_after_authority_turn_iff settled_pair hev (by decide) hds (by decide)).mpr fun h =>
    absurd h.1 (by decide)

/-- "b" announces generation 1025: "a" mints generation 1026, which "b" refuses. -/
theorem announcement_splits_room :
    ¬∀ (room : Room) (ids : List String) (a : String) (k : RoomKey) (env : Env) (ev : Event)
      (ds : List RoomEvent), room.Settled ids a k → AuthorityEvent ids a k ev →
      (∀ p ∈ ids, p ≠ a → p ∈ env.sessions) → (∀ d ∈ ds, ∃ p env, d = .deliver a p env) →
      (StepRun.run step room (.turn a (env, ev) :: ds)).QuietAmong ids →
      (StepRun.run step room (.turn a (env, ev) :: ds)).Agree ids := by
  intro h
  have hev : AuthorityEvent ["a", "b"] "a" pairKey (.mesh (.roomGen "b" 1025)) :=
    ⟨by decide, by decide⟩
  have hds : ∀ d ∈ [(.deliver "a" "b" ⟨[], Vector.replicate 32 0⟩ : RoomEvent)],
      ∃ p env, d = .deliver "a" p env := by simp
  obtain ⟨k, hk⟩ := h _ _ _ _ ⟨["b"], Vector.replicate 32 2⟩ _ _ settled_pair hev (by decide) hds
    (by decide)
  have hsame := (hk "a" (by decide)).trans (hk "b" (by decide)).symm
  exact absurd hsame (by decide)

end Subraum.Keys.Room
