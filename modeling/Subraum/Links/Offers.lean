import Subraum.Links.Halves

/-!
# Who offers (`companion-core/src/mesh.rs`)

Offers are made on the own account only, each for a connection that is new.  Of two nodes that see
each other, or change keys, only the smaller one makes one (`offersOnce`).  Its peer answers every
offer of it, so what it is owed are answers to its last offers, in their order (`Sane.owed`).
-/

namespace Subraum.Links

open FifoNet (sentTo sentTo_append)

/-- The library reads the descriptions that it makes. -/
structure Api.Lawful (api : Api) : Prop where
  offers : ∀ id, api.parses (api.offerText id) = true
  answers : ∀ id text, api.parses (api.answerText id text) = true

def Msg.sdp : Msg → Sdp
  | .offer sdp | .answer sdp => sdp

variable {api : Api} {s : Observed}

/-! ## One step -/

section Steps

theorem node_turn (s : Observed) (i : String) (t : Turn) (x : String) :
    (Observed.step api s (.turn i t)).1.node x =
      if x = i then ((s.1.node i).turn api t).1 else s.1.node x := by
  by_cases hx : x = i
  · rw [if_pos hx, hx]
    exact FifoNet.act_node_self i _
  · rw [if_neg hx]
    exact FifoNet.act_node_ne hx _

theorem link_turn (s : Observed) (i : String) (t : Turn) (a b : String) :
    (Observed.step api s (.turn i t)).1.link a b =
      s.1.link a b ++ if a = i then sentTo (sends ((s.1.node i).turn api t).2) b else [] := by
  by_cases ha : a = i
  · rw [if_pos ha, ha]
    exact FifoNet.act_link_self i b _
  · rw [if_neg ha, List.append_nil]
    exact FifoNet.act_link_ne ha b _

theorem log_turn (s : Observed) (i : String) (t : Turn) (a b : String) :
    (Observed.step api s (.turn i t)).2 a b =
      s.2 a b ++ if a = i then offersTo ((s.1.node i).turn api t).2 b else [] := by
  show s.2 a b ++ offers (if a = i then sentTo (sends ((s.1.node i).turn api t).2) b else []) = _
  split_ifs <;> rfl

theorem step_deliver_nil {src dst : String} (hlink : s.1.link src dst = []) :
    Observed.step api s (.deliver src dst) = s := by
  simp only [Observed.step, MeshEvent.scheduled, FifoNet.step_deliver_nil hlink,
    FifoNet.outbox_deliver_nil hlink, offers_nil, List.append_nil]

variable {src dst : String} {msg : Msg} {rest : List Msg}

theorem node_deliver (hlink : s.1.link src dst = msg :: rest) (x : String) :
    (Observed.step api s (.deliver src dst)).1.node x =
      if x = dst then ((s.1.node dst).handle api (msg.input src ())).1 else s.1.node x := by
  simp only [Observed.step, MeshEvent.scheduled, FifoNet.step_deliver_cons hlink]
  by_cases hx : x = dst
  · rw [if_pos hx, hx]
    exact FifoNet.act_node_self dst _
  · rw [if_neg hx]
    exact FifoNet.act_node_ne hx _

theorem link_deliver (hlink : s.1.link src dst = msg :: rest) (a b : String) :
    (Observed.step api s (.deliver src dst)).1.link a b =
      (if a = src ∧ b = dst then rest else s.1.link a b) ++
        if a = dst then sentTo (sends ((s.1.node dst).handle api (msg.input src ())).2) b
        else [] := by
  simp only [Observed.step, MeshEvent.scheduled, FifoNet.step_deliver_cons hlink]
  have hpop : (s.1.pop src dst).link a b = if a = src ∧ b = dst then rest else s.1.link a b := by
    by_cases hab : a = src ∧ b = dst
    · rw [if_pos hab, hab.1, hab.2, FifoNet.pop_link_self, hlink]
      rfl
    · rw [if_neg hab, FifoNet.pop_link_ne hab]
  rw [← hpop]
  by_cases ha : a = dst
  · rw [if_pos ha, ha]
    exact FifoNet.act_link_self dst b _
  · rw [if_neg ha, List.append_nil]
    exact FifoNet.act_link_ne ha b _

/-- What is delivered makes nobody offer. -/
theorem log_deliver (s : Observed) (src dst : String) :
    (Observed.step api s (.deliver src dst)).2 = s.2 := by
  cases hlink : s.1.link src dst with
  | nil => rw [step_deliver_nil hlink]
  | cons msg rest =>
    simp only [Observed.step, MeshEvent.scheduled, FifoNet.outbox_deliver_cons hlink]
    funext a b
    have hsilent : offers (if a = dst then
        sentTo ((s.1.node dst).respond api (msg.input src ())).2 b else []) = [] := by
      split_ifs
      · refine List.filterMap_eq_nil_iff.mpr fun msg' hmsg' => ?_
        obtain ⟨-, offer, text, -, rfl⟩ := sent_of_input hmsg'
        rfl
      · rfl
    rw [hsilent, List.append_nil]

end Steps

/-! ## The offers of a turn -/

theorem offersTo_of_starts {m : Mesh} {p : String} {t : Turn} (h : t.Starts m p) :
    ∃ n, m.made ≤ n ∧ n < (m.turn api t).1.made ∧ offersTo (m.turn api t).2 p = [⟨m.myId, n⟩] := by
  obtain ⟨n, hle, hlt, -, hsent⟩ := @Mesh.turn_starts api m p t h
  exact ⟨n, hle, hlt, by rw [offersTo, hsent]; rfl⟩

theorem offersTo_of_not_starts {m : Mesh} {p : String} {t : Turn} (h : ¬t.Starts m p) :
    offersTo (m.turn api t).2 p = [] := by
  rw [offersTo, (Mesh.turn_silent h).1]
  rfl

/-! ## What holds at every node -/

/-- Nothing is stored in the middle of an answer, and no connection has a number to come. -/
def Mesh.Settled (m : Mesh) : Prop :=
  ∀ p h, m.half p = some h → h.signaling ≠ .haveRemoteOffer ∧ h.id.n < m.made

namespace Mesh.Settled

variable {m : Mesh} {peer : String}

theorem about {r : Mesh × List Effect} (hm : m.Settled) (h : About peer m r)
    (hself : ∀ h, r.1.half peer = some h → h.signaling ≠ .haveRemoteOffer ∧ h.id.n < r.1.made) :
    r.1.Settled := by
  intro p l hl
  by_cases hp : p = peer
  · subst hp
    exact hself l hl
  · obtain ⟨hsignaling, hn⟩ := hm p l ((h.others p hp).symm.trans hl)
    exact ⟨hsignaling, hn.trans_le h.made⟩

theorem ensure (hm : m.Settled) (peer : String) : (m.ensure peer).Settled := by
  refine hm.about (Mesh.about_ensure m peer) fun h hh => ?_
  rw [Mesh.half_ensure_self] at hh
  cases hhalf : m.half peer with
  | some l =>
    rw [hhalf] at hh
    obtain rfl := Option.some.inj hh
    obtain ⟨hsignaling, hn⟩ := hm peer l hhalf
    exact ⟨hsignaling, hn.trans_le (Mesh.about_ensure m peer).made⟩
  | none =>
    rw [hhalf] at hh
    obtain rfl := Option.some.inj hh
    refine ⟨nofun, ?_⟩
    show m.made < (m.ensure peer).made
    rw [Mesh.made_ensure hhalf]
    exact Nat.lt_succ_self _

theorem detach (hm : m.Settled) (peer : String) : (m.detach peer).1.Settled :=
  hm.about (Mesh.about_detach m peer) fun _ hh =>
    nomatch (Mesh.half_detach_self m peer).symm.trans hh

theorem onLeft (hm : m.Settled) (peer : String) : (m.onLeft peer).1.Settled :=
  detach (m := { m with crypto := m.crypto.remove peer }) hm peer

theorem makeWay (hm : m.Settled) (peer : String) : (m.makeWay peer).1.Settled := by
  refine hm.about (Mesh.about_makeWay m peer) fun h hh => ?_
  obtain ⟨hleft, hmade⟩ := Mesh.makeWay_self m peer
  rw [hleft] at hh
  rw [hmade]
  exact hm peer h (Option.filter_eq_some_iff.mp hh).1

theorem rebuild (hm : m.Settled) (peer : String) : (m.rebuild api peer).1.Settled := by
  refine hm.about (Mesh.about_rebuild m peer) fun h hh => ?_
  obtain ⟨hhalf, hmade, -⟩ := Mesh.rebuild_self api m peer
  obtain rfl := Option.some.inj (hhalf.symm.trans hh)
  refine ⟨nofun, ?_⟩
  rw [hmade]
  exact Nat.lt_succ_self _

theorem onPeer (hm : m.Settled) (peer : String) : (m.onPeer api peer).1.Settled := by
  rw [Mesh.onPeer]
  split_ifs
  · exact hm.rebuild peer
  · exact hm.ensure peer

theorem relink (hm : m.Settled) (peer : String) : (m.relink api peer).1.Settled := by
  rw [Mesh.relink]
  split_ifs
  · exact hm
  · exact hm.rebuild peer

theorem rekeyAll (hm : m.Settled) (ids : List String) : (m.rekeyAll api ids).1.Settled := by
  induction ids generalizing m with
  | nil => exact hm
  | cons id ids ih =>
    have hone : (m.rekeyOne api id).1.Settled := by
      rw [Mesh.rekeyOne]
      split_ifs
      · exact (hm.detach id).onPeer id
      · exact hm
    exact ih hone

theorem accept (hm : m.Settled) (peer : String) (sdp : Sdp) :
    (m.accept api peer sdp).1.Settled := by
  have habout := @Mesh.about_accept api m peer sdp
  rw [Mesh.accept] at habout ⊢
  cases hlookup : m.peers.lookup peer with
  | none => exact hm
  | some conn =>
    rw [hlookup] at habout
    dsimp only at habout ⊢
    by_cases hparses : api.parses sdp.text = true
    · rw [if_pos hparses] at habout ⊢
      cases hset : conn.pc.setRemoteOffer sdp with
      | error e => exact hm
      | ok pc =>
        rw [hset] at habout
        refine hm.about habout fun h hh => ?_
        obtain rfl := Option.some.inj ((Mesh.half_setConn_self m peer _).symm.trans hh)
        rw [Pc.setRemoteOffer] at hset
        split_ifs at hset
        obtain rfl := Except.ok.inj hset
        exact ⟨SignalingState.noConfusion, (hm peer _ (Mesh.half_of_lookup hlookup)).2⟩
    · rw [if_neg hparses]
      exact hm

theorem onOffer (hm : m.Settled) (peer : String) (sdp : Sdp) :
    (m.onOffer api peer sdp).1.Settled := by
  rw [Mesh.onOffer]
  split_ifs
  · exact hm
  · exact ((hm.makeWay peer).ensure peer).accept peer sdp

theorem onAnswer (hm : m.Settled) (peer : String) (sdp : Sdp) :
    (m.onAnswer api peer sdp).1.Settled := by
  cases hhalf : m.half peer with
  | none =>
    rw [Mesh.onAnswer, Option.map_eq_none_iff.mp hhalf]
    exact hm
  | some l =>
    obtain ⟨hnew, hmade⟩ := @Mesh.onAnswer_self api m peer l sdp hhalf
    refine hm.about (Mesh.about_onAnswer m peer sdp) fun h hh => ?_
    obtain ⟨hsignaling, hn⟩ := hm peer l hhalf
    dsimp only
    rw [hmade]
    obtain rfl := Option.some.inj (hnew.symm.trans hh)
    split_ifs
    · exact ⟨SignalingState.noConfusion, hn⟩
    · exact ⟨hsignaling, hn⟩

/-- The half that the operation is about is the same as before. -/
theorem same {r : Mesh × List Effect} (hm : m.Settled) (h : About peer m r)
    (hsame : r.1.half peer = m.half peer) : r.1.Settled :=
  hm.about h fun l hl =>
    ⟨(hm peer l (hsame.symm.trans hl)).1, (hm peer l (hsame.symm.trans hl)).2.trans_le h.made⟩

theorem handle (hm : m.Settled) (input : Input) : (m.handle api input).1.Settled :=
  match input with
  | .onOffer peer sdp => hm.onOffer peer sdp
  | .onAnswer peer sdp => hm.onAnswer peer sdp
  | .turn (.onPeer peer) => hm.onPeer peer
  | .turn (.relink peer) => hm.relink peer
  | .turn .rekey => hm.rekeyAll m.peers.keys
  | .turn (.onIce peer cand) =>
    hm.same (Mesh.about_onIce m peer cand) (Mesh.half_onIce_self m peer cand)
  | .turn (.onLeft peer) => hm.onLeft peer
  | .turn .closeAll => fun _ _ h => nomatch h
  | .turn (.connection peer state) =>
    hm.same (Mesh.about_setConnection m peer state) (Mesh.half_setConnection_self m peer state)

end Mesh.Settled

/-- The id stays, and connections are only ever made. -/
theorem Mesh.handle_myId (m : Mesh) (input : Input) :
    (m.handle api input).1.myId = m.myId ∧ m.made ≤ (m.handle api input).1.made := by
  have habout : ∀ {peer : String} {r : Mesh × List Effect}, About peer m r →
      r.1.myId = m.myId ∧ m.made ≤ r.1.made := fun h => ⟨h.myId, h.made⟩
  match input with
  | .onOffer peer sdp => exact habout (about_onOffer m peer sdp)
  | .onAnswer peer sdp => exact habout (about_onAnswer m peer sdp)
  | .turn (.onPeer peer) => exact habout (about_onPeer m peer)
  | .turn (.relink peer) => exact habout (about_relink m peer)
  | .turn .rekey =>
    obtain ⟨hmyId, hmade, -⟩ := @rekeyAll_spec api m _ m.peers.nodupKeys m.myId
    exact ⟨hmyId, hmade⟩
  | .turn (.onIce peer cand) => exact habout (about_onIce m peer cand)
  | .turn (.onLeft peer) => exact habout (about_onLeft m peer)
  | .turn .closeAll => exact ⟨rfl, le_rfl⟩
  | .turn (.connection peer state) => exact habout (about_setConnection m peer state)

/-- An offer is ignored by who waits for an answer to its own and is smaller.  Everybody else
answers it. -/
theorem Mesh.onOffer_cases {m : Mesh} {peer : String} {sdp : Sdp} (hm : m.Settled)
    (hparses : api.parses sdp.text = true) :
    (m.myId < peer ∧ (∃ h, m.half peer = some h ∧ h.signaling = .haveLocalOffer) ∧
      m.onOffer api peer sdp = (m, [], .ok ())) ∨
    ∃ id, (m.onOffer api peer sdp).1.half peer = some ⟨id, .stable, some sdp, true⟩ ∧
      sentTo (sends (m.onOffer api peer sdp).2.1) peer =
        [.answer ⟨api.answerText id sdp.text, sdp.offerer⟩] ∧
      ((m.onOffer api peer sdp).1.made = m.made + 1 ∧ id = ⟨m.myId, m.made⟩ ∨
        (m.onOffer api peer sdp).1.made = m.made ∧
          ∃ h, m.half peer = some h ∧ h.idle = true ∧ h.id = id) := by
  by_cases hkeeps : m.myId < peer ∧ ∃ h, m.half peer = some h ∧ h.signaling = .haveLocalOffer
  · obtain ⟨hless, h, hhalf, hwaiting⟩ := hkeeps
    exact Or.inl ⟨hless, ⟨h, hhalf, hwaiting⟩, onOffer_ignored hhalf hwaiting hless⟩
  · exact Or.inr (onOffer_self hparses (fun h hhalf => (hm peer h hhalf).1)
      fun hless h hhalf hwaiting => hkeeps ⟨hless, h, hhalf, hwaiting⟩)

/-! ## What holds in every run -/

/-- What `x` will be answered: the answers that are on their way, and those to the offers that
are. -/
def owed (net : Net) (x y : String) : List PcId := answers (net.link y x) ++ offers (net.link x y)

structure Sane (api : Api) (s : Observed) : Prop where
  myId : ∀ i, (s.1.node i).myId = i
  settled : ∀ i, (s.1.node i).Settled
  parses : ∀ i p, ∀ msg ∈ s.1.link i p, api.parses msg.sdp.text = true
  below : ∀ i p, ∀ id ∈ s.2 i p, id.n < (s.1.node i).made
  nodup : ∀ i p, (s.2 i p).Nodup
  /-- A larger peer answers everything, so what is still to come concerns the last offers. -/
  owed : ∀ x y, x < y → owed s.1 x y <:+ s.2 x y

theorem Sane.init (api : Api) : Sane api Observed.init where
  myId _ := rfl
  settled _ _ _ h := nomatch h
  parses _ _ _ h := absurd h List.not_mem_nil
  below _ _ _ h := absurd h List.not_mem_nil
  nodup _ _ := List.nodup_nil
  owed _ _ _ := List.suffix_rfl

theorem sentTo_turn_eq (m : Mesh) (t : Turn) (p : String) :
    sentTo (sends (m.turn api t).2) p = [] ∨
      ∃ n, m.made ≤ n ∧ n < (m.turn api t).1.made ∧
        sentTo (sends (m.turn api t).2) p = [.offer (Mesh.offered api ⟨m.myId, n⟩)] := by
  by_cases hstarts : t.Starts m p
  · obtain ⟨n, hle, hlt, -, hsent⟩ := @Mesh.turn_starts api m p t hstarts
    exact Or.inr ⟨n, hle, hlt, hsent⟩
  · exact Or.inl (Mesh.turn_silent hstarts).1

theorem Sane.turn (hs : Sane api s) (hapi : api.Lawful) (i : String) (t : Turn) :
    Sane api (Observed.step api s (.turn i t)) := by
  obtain ⟨hmyId, hmade⟩ := @Mesh.handle_myId api (s.1.node i) (.turn t)
  have hanswers : ∀ a b, answers (if a = i then sentTo (sends ((s.1.node i).turn api t).2) b
      else []) = [] := by
    intro a b
    split_ifs
    · rcases @sentTo_turn_eq api (s.1.node i) t b with hnil | ⟨n, -, -, hone⟩
      · rw [hnil, answers_nil]
      · rw [hone]
        rfl
    · rfl
  refine ⟨fun a => ?_, fun a => ?_, fun a b msg hmsg => ?_, fun a b id hid => ?_, fun a b => ?_,
    fun x y hxy => ?_⟩
  · rw [node_turn]
    split_ifs with ha
    · exact hmyId.trans ((hs.myId i).trans ha.symm)
    · exact hs.myId a
  · rw [node_turn]
    split_ifs
    · exact (hs.settled i).handle (.turn t)
    · exact hs.settled a
  · rw [link_turn, List.mem_append] at hmsg
    rcases hmsg with hold | hnew
    · exact hs.parses a b msg hold
    · split_ifs at hnew
      · rcases @sentTo_turn_eq api (s.1.node i) t b with hnil | ⟨n, -, -, hone⟩
        · rw [hnil] at hnew
          exact absurd hnew List.not_mem_nil
        · rw [hone, List.mem_singleton] at hnew
          rw [hnew]
          exact hapi.offers _
      · exact absurd hnew List.not_mem_nil
  · rw [log_turn, List.mem_append] at hid
    rw [node_turn]
    split_ifs at hid ⊢ with ha
    · subst ha
      rcases hid with hold | hnew
      · exact (hs.below a b id hold).trans_le hmade
      · by_cases hstarts : t.Starts (s.1.node a) b
        · obtain ⟨n, -, hlt, hone⟩ := @offersTo_of_starts api _ b t hstarts
          rw [hone, List.mem_singleton] at hnew
          rw [hnew]
          exact hlt
        · rw [offersTo_of_not_starts hstarts] at hnew
          exact absurd hnew List.not_mem_nil
    · exact hs.below a b id (hid.resolve_right List.not_mem_nil)
  · rw [log_turn]
    split_ifs with ha
    · subst ha
      by_cases hstarts : t.Starts (s.1.node a) b
      · obtain ⟨n, hle, -, hone⟩ := @offersTo_of_starts api _ b t hstarts
        rw [hone, ← List.concat_eq_append]
        refine (hs.nodup a b).concat fun hmem => ?_
        have hlt := hs.below a b _ hmem
        dsimp only at hlt
        omega
      · rw [offersTo_of_not_starts hstarts, List.append_nil]
        exact hs.nodup a b
    · rw [List.append_nil]
      exact hs.nodup a b
  · obtain ⟨before, hbefore⟩ := hs.owed x y hxy
    refine ⟨before, ?_⟩
    rw [Links.owed, link_turn, link_turn, answers_append, offers_append, hanswers, log_turn,
      List.append_nil, ← hbefore, Links.owed]
    simp only [List.append_assoc]
    split_ifs <;> rfl

/-- Only who has sent a message is answered. -/
theorem sentTo_input_of_ne (m : Mesh) (msg : Msg) {src p : String} (hp : p ≠ src) :
    sentTo (sends (m.handle api (msg.input src ())).2) p = [] := by
  refine List.eq_nil_iff_forall_not_mem.mpr fun msg' hmsg' => hp ?_
  exact (sent_of_input hmsg').1

theorem offers_input (m : Mesh) (msg : Msg) (src p : String) :
    offers (sentTo (sends (m.handle api (msg.input src ())).2) p) = [] := by
  refine List.filterMap_eq_nil_iff.mpr fun msg' hmsg' => ?_
  obtain ⟨-, offer, text, -, rfl⟩ := sent_of_input hmsg'
  rfl

/-- A larger peer answers what it is offered, so it is owed the same as before. -/
theorem Sane.owed_answered (hs : Sane api s) {x y : String} (hxy : x < y) :
    Links.owed (Observed.step api s (.deliver x y)).1 x y = Links.owed s.1 x y := by
  cases hlink : s.1.link x y with
  | nil => rw [step_deliver_nil hlink]
  | cons msg rest =>
    have hmsg : api.parses msg.sdp.text = true := hs.parses x y msg (hlink ▸ List.mem_cons_self)
    rw [Links.owed, Links.owed, link_deliver hlink, link_deliver hlink,
      if_neg fun h => hxy.ne h.1.symm, if_pos rfl, if_pos ⟨rfl, rfl⟩, if_neg hxy.ne,
      List.append_nil, answers_append, hlink]
    cases msg with
    | answer sdp =>
      have hsends : sends ((s.1.node y).handle api (.onAnswer x sdp)).2 = [] :=
        Mesh.sends_onAnswer _ x sdp
      rw [Msg.input, hsends, FifoNet.sentTo_nil, answers_nil, List.append_nil]
      rfl
    | offer sdp =>
      rcases Mesh.onOffer_cases (hs.settled y) hmsg with ⟨hless, -, -⟩ | ⟨id, -, hsent, -⟩
      · rw [hs.myId] at hless
        exact absurd hless hxy.not_gt
      · have hanswer : sentTo (sends ((s.1.node y).handle api (.onOffer x sdp)).2) x =
            [.answer ⟨api.answerText id sdp.text, sdp.offerer⟩] := hsent
        rw [Msg.input, hanswer, List.append_assoc]
        rfl

theorem Sane.deliver (hs : Sane api s) (hapi : api.Lawful) (src dst : String) :
    Sane api (Observed.step api s (.deliver src dst)) := by
  cases hlink : s.1.link src dst with
  | nil => rwa [step_deliver_nil hlink]
  | cons msg rest =>
    obtain ⟨hmyId, hmade⟩ := @Mesh.handle_myId api (s.1.node dst) (msg.input src ())
    have hmsg : api.parses msg.sdp.text = true :=
      hs.parses src dst msg (hlink ▸ List.mem_cons_self)
    refine ⟨fun a => ?_, fun a => ?_, fun a b msg' hmsg' => ?_, fun a b id hid => ?_, fun a b => ?_,
      fun x y hxy => ?_⟩
    · rw [node_deliver hlink]
      split_ifs with ha
      · exact hmyId.trans ((hs.myId dst).trans ha.symm)
      · exact hs.myId a
    · rw [node_deliver hlink]
      split_ifs
      · exact (hs.settled dst).handle _
      · exact hs.settled a
    · rw [link_deliver hlink, List.mem_append] at hmsg'
      rcases hmsg' with hold | hnew
      · split_ifs at hold with hab
        · refine hs.parses src dst msg' ?_
          rw [hlink]
          exact List.mem_cons_of_mem _ hold
        · exact hs.parses a b msg' hold
      · split_ifs at hnew
        · cases msg with
          | answer sdp =>
            have hsends : sends ((s.1.node dst).handle api (.onAnswer src sdp)).2 = [] :=
              Mesh.sends_onAnswer _ src sdp
            rw [Msg.input, hsends] at hnew
            exact absurd hnew List.not_mem_nil
          | offer sdp =>
            by_cases hb : b = src
            · subst hb
              rcases @Mesh.onOffer_cases api _ b _ (hs.settled dst) hmsg with
                ⟨-, -, hidle⟩ | ⟨id, -, hsent, -⟩
              · have hsends : sends ((s.1.node dst).handle api (.onOffer b sdp)).2 = [] :=
                  congrArg (fun r : Mesh × List Effect × Except Error Unit => sends r.2.1) hidle
                rw [Msg.input, hsends] at hnew
                exact absurd hnew List.not_mem_nil
              · obtain rfl := List.mem_singleton.mp (hsent ▸ hnew :
                  msg' ∈ [Msg.answer ⟨api.answerText id sdp.text, sdp.offerer⟩])
                exact hapi.answers id sdp.text
            · rw [sentTo_input_of_ne _ _ hb] at hnew
              exact absurd hnew List.not_mem_nil
        · exact absurd hnew List.not_mem_nil
    · rw [log_deliver] at hid
      rw [node_deliver hlink]
      split_ifs with ha
      · subst ha
        exact (hs.below a b id hid).trans_le hmade
      · exact hs.below a b id hid
    · rw [log_deliver]
      exact hs.nodup a b
    · rw [log_deliver]
      refine List.IsSuffix.trans ?_ (hs.owed x y hxy)
      by_cases hto : src = x ∧ dst = y
      · obtain ⟨rfl, rfl⟩ := hto
        rw [hs.owed_answered hxy]
      · rw [Links.owed, Links.owed, link_deliver hlink, link_deliver hlink]
        have hsilent : (if y = dst then
            sentTo (sends ((s.1.node dst).handle api (msg.input src ())).2) x else []) = [] := by
          split_ifs with hy
          · exact sentTo_input_of_ne _ _ fun hx => hto ⟨hx.symm, hy.symm⟩
          · rfl
        have hoffers : offers (if x = dst then
            sentTo (sends ((s.1.node dst).handle api (msg.input src ())).2) y else []) = [] := by
          split_ifs
          · exact offers_input _ _ _ _
          · rfl
        have hanswers : answers (if y = src ∧ x = dst then rest else s.1.link y x) <:+
            answers (s.1.link y x) := by
          split_ifs with hback
          · obtain ⟨rfl, rfl⟩ := hback
            rw [hlink]
            cases msg with
            | offer sdp => exact List.suffix_rfl
            | answer sdp => exact List.suffix_cons _ _
          · exact List.suffix_rfl
        have hkept : (if x = src ∧ y = dst then rest else s.1.link x y) = s.1.link x y :=
          if_neg fun h => hto ⟨h.1.symm, h.2.symm⟩
        obtain ⟨before, hbefore⟩ := hanswers
        refine ⟨before, ?_⟩
        rw [hsilent, List.append_nil, offers_append, hoffers, List.append_nil, hkept, ← hbefore,
          List.append_assoc]

theorem Sane.step (hs : Sane api s) (hapi : api.Lawful) (ev : MeshEvent) :
    Sane api (Observed.step api s ev) := by
  cases ev with
  | turn i t => exact hs.turn hapi i t
  | deliver src dst => exact hs.deliver hapi src dst

/-! ## One offer for each pair -/

/-- The event makes `x` offer a new connection to `y`. -/
def Starting (x y : String) (s : Observed) : MeshEvent → Prop
  | .turn i t => i = x ∧ t.Starts (s.1.node x) y
  | .deliver _ _ => False

/-- The turn is about a fresh start with `p`. -/
def Turn.renews (p : String) : Turn → Bool
  | .onPeer peer | .relink peer => peer = p
  | .rekey => true
  | .onIce _ _ | .onLeft _ | .closeAll | .connection _ _ => false

/-- A turn of `x` about a fresh start with `y`. -/
def renewing (x y : String) : MeshEvent → Bool
  | .turn i t => i = x && t.renews y
  | .deliver _ _ => false

/-- The turns of the two nodes that are about a fresh start with each other. -/
def between (x y : String) (es : List MeshEvent) : List MeshEvent :=
  es.filter fun ev => renewing x y ev || renewing y x ev

/-- Both nodes handle the same event, each once, and no other fresh start: they see each other, or
change keys. -/
def Joint (x y : String) (es : List MeshEvent) : Prop :=
  (between x y es).Perm [.turn x (.onPeer y), .turn y (.onPeer x)] ∨
    (between x y es).Perm [.turn x .rekey, .turn y .rekey]

/-- Who changes keys has a connection to the other. -/
def Linked (x y : String) (s : Observed) : MeshEvent → Prop
  | .turn i .rekey => i = x → y ∈ (s.1.node x).peers
  | _ => True

theorem log_step (s : Observed) (ev : MeshEvent) (x y : String) :
    (Starting x y s ev → ((Observed.step api s ev).2 x y).length = (s.2 x y).length + 1) ∧
      (¬Starting x y s ev → (Observed.step api s ev).2 x y = s.2 x y) := by
  cases ev with
  | deliver src dst => exact ⟨False.elim, fun _ => by rw [log_deliver]⟩
  | turn i t =>
    rw [log_turn]
    constructor
    · rintro ⟨rfl, hstarts⟩
      obtain ⟨n, -, -, hone⟩ := @offersTo_of_starts api _ y t hstarts
      rw [if_pos rfl, hone, List.length_append]
      rfl
    · intro hnot
      by_cases hx : x = i
      · subst hx
        rw [if_pos rfl, offersTo_of_not_starts fun hstarts => hnot ⟨rfl, hstarts⟩, List.append_nil]
      · rw [if_neg hx, List.append_nil]

/-- A run offers as often as it makes a fresh start. -/
theorem log_run {x y : String} {C : MeshEvent → Bool} {es : List MeshEvent}
    (hC : StepRun.EveryStep (Observed.step api)
      (fun s ev => Starting x y s ev ↔ C ev = true) s es) :
    ((StepRun.run (Observed.step api) s es).2 x y).length = (s.2 x y).length + es.countP C := by
  induction es generalizing s with
  | nil => rfl
  | cons ev es ih =>
    obtain ⟨hev, hrest⟩ := hC
    obtain ⟨hone, hnone⟩ := @log_step api s ev x y
    rw [StepRun.run_cons, ih hrest, List.countP_cons]
    by_cases hstarting : Starting x y s ev
    · rw [hone hstarting, if_pos (hev.mp hstarting)]
      omega
    · rw [hnone hstarting, if_neg fun h => hstarting (hev.mpr h)]
      rfl

theorem renewing_of_starting {x y : String} {ev : MeshEvent} (h : Starting x y s ev) :
    renewing x y ev = true := by
  cases ev with
  | deliver src dst => exact h.elim
  | turn i t =>
    obtain ⟨rfl, hstarts⟩ := h
    rw [renewing, decide_eq_true rfl, Bool.true_and]
    cases t with
    | onPeer peer => exact decide_eq_true hstarts.1
    | relink peer => exact decide_eq_true hstarts.1
    | rekey => rfl
    | onIce peer cand | onLeft peer | connection peer state => exact hstarts.elim
    | closeAll => exact hstarts.elim

/-- In a joint event only the smaller node starts anew, with the turn that is its own. -/
theorem starting_iff_of_joint {x y : String} {ev : MeshEvent} (hs : Sane api s) (hxy : x < y)
    (hev : renewing x y ev = true ∨ renewing y x ev = true →
      ev = .turn x (.onPeer y) ∨ ev = .turn y (.onPeer x) ∨ ev = .turn x .rekey ∨
        ev = .turn y .rekey)
    (hlinked : Linked x y s ev) :
    (Starting x y s ev ↔ renewing x y ev = true) ∧ ¬Starting y x s ev := by
  have hless : (s.1.node x).myId < y := (hs.myId x).symm ▸ hxy
  have hnot : ¬(s.1.node y).myId < x := (hs.myId y).symm ▸ hxy.not_gt
  constructor
  · refine ⟨renewing_of_starting, fun hrenew => ?_⟩
    rcases hev (Or.inl hrenew) with rfl | rfl | rfl | rfl
    · exact ⟨rfl, rfl, hless⟩
    · exact absurd (of_decide_eq_true (Bool.and_eq_true_iff.mp hrenew).1) hxy.ne'
    · exact ⟨rfl, hlinked rfl, hless⟩
    · exact absurd (of_decide_eq_true (Bool.and_eq_true_iff.mp hrenew).1) hxy.ne'
  · intro hstarting
    rcases hev (Or.inr (renewing_of_starting hstarting)) with rfl | rfl | rfl | rfl
    · exact hxy.ne hstarting.1
    · exact hnot hstarting.2.2
    · exact hxy.ne hstarting.1
    · exact hnot hstarting.2.2

theorem mem_of_joint {x y : String} {es : List MeshEvent} (h : Joint x y es) {ev : MeshEvent}
    (hev : ev ∈ es) (hrenew : renewing x y ev = true ∨ renewing y x ev = true) :
    ev = .turn x (.onPeer y) ∨ ev = .turn y (.onPeer x) ∨ ev = .turn x .rekey ∨
      ev = .turn y .rekey := by
  have hmem : ev ∈ between x y es :=
    List.mem_filter.mpr ⟨hev, (Bool.or_eq_true _ _).mpr hrenew⟩
  rcases h with hsee | hrekey
  · rcases List.mem_cons.mp (hsee.mem_iff.mp hmem) with rfl | hmem
    · exact Or.inl rfl
    · exact Or.inr (Or.inl (List.mem_singleton.mp hmem))
  · rcases List.mem_cons.mp (hrekey.mem_iff.mp hmem) with rfl | hmem
    · exact Or.inr (Or.inr (Or.inl rfl))
    · exact Or.inr (Or.inr (Or.inr (List.mem_singleton.mp hmem)))

/-- Of the two turns one is that of `x`. -/
theorem count_of_joint {x y : String} {es : List MeshEvent} (hxy : x < y) (h : Joint x y es) :
    es.countP (renewing x y) = 1 := by
  have hbetween : es.countP (renewing x y) = (between x y es).countP (renewing x y) := by
    rw [between, List.countP_filter]
    refine List.countP_congr fun ev _ => ?_
    rw [Bool.and_eq_true, Bool.or_eq_true]
    exact ⟨fun hx => ⟨hx, Or.inl hx⟩, And.left⟩
  rw [hbetween]
  rcases h with hsee | hrekey
  · rw [hsee.countP_eq]
    simp [renewing, Turn.renews, hxy.ne']
  · rw [hrekey.countP_eq]
    simp [renewing, Turn.renews, hxy.ne']

/-- When both nodes of a pair handle the same event, the smaller one offers, once, and the larger
one does not, whatever is delivered in between. -/
theorem offers_once {x y : String} {es : List MeshEvent} (hs : Sane api s) (hapi : api.Lawful)
    (hxy : x < y) (hjoint : Joint x y es)
    (hlinked : StepRun.EveryStep (Observed.step api) (Linked x y) s es) :
    ((StepRun.run (Observed.step api) s es).2 x y).length = (s.2 x y).length + 1 ∧
      ((StepRun.run (Observed.step api) s es).2 y x).length = (s.2 y x).length := by
  have hsteps : StepRun.EveryStep (Observed.step api)
      (fun s ev => (Starting x y s ev ↔ renewing x y ev = true) ∧ ¬Starting y x s ev) s es := by
    have hguard := hlinked.and (StepRun.everyStep_of_forall
      (P := fun ev => renewing x y ev = true ∨ renewing y x ev = true →
        ev = .turn x (.onPeer y) ∨ ev = .turn y (.onPeer x) ∨ ev = .turn x .rekey ∨
          ev = .turn y .rekey) fun ev hev => mem_of_joint hjoint hev)
    exact StepRun.everyStep_of_invariant (I := Sane api) (fun s ev hs _ => hs.step hapi ev)
      (fun s ev hs hev => starting_iff_of_joint hs hxy hev.2 hev.1) hs hguard
  constructor
  · rw [log_run (hsteps.mono fun _ _ h => h.1), count_of_joint hxy hjoint]
  · have hnone := log_run (C := fun _ => false) (hsteps.mono fun s ev h =>
      (iff_of_false h.2 Bool.false_ne_true : Starting y x s ev ↔ false = true))
    rw [hnone, List.countP_false]
    rfl

end Subraum.Links
