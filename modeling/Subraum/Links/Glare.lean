import Subraum.Links.Offers

/-!
# Offers that cross (`Mesh::on_offer` in `companion-core/src/mesh.rs`)

After a relink on both sides each node waits for an answer while the other's offer is on its way.
The smaller node keeps its offer and ignores the other's, the larger one gives its own up and
answers.  That settles it if nothing else is on its way.  But an answer does not say which offer it
is for: if the smaller node is still owed one to an earlier offer, it takes that for the answer to
the last one, and then the two connections do not belong together (`glare_iff`).
-/

namespace Subraum.Links

open FifoNet (sentTo sentTo_append)

/-- Both wait for an answer, and the two offers are on their way to each other. -/
structure Crossing (s : Observed) (x y : String) (ix iy : PcId) : Prop where
  left : (s.1.node x).waiting y = some ix
  right : (s.1.node y).waiting x = some iy
  out : ix ∈ offers (s.1.link x y)
  back : iy ∈ offers (s.1.link y x)

/-- The turn gives up the connection of `x` to `y`. -/
def Leaving (x y : String) : MeshEvent → Prop
  | .turn i t => i = x ∧ t.Leaves y
  | .deliver _ _ => False

/-- Neither node starts anew with the other, or gives it up. -/
structure Steady (x y : String) (s : Observed) (ev : MeshEvent) : Prop where
  left : ¬Starting x y s ev
  right : ¬Starting y x s ev
  stays : ¬Leaving x y ev
  remains : ¬Leaving y x ev

/-- Nothing is on its way between the two nodes. -/
def Idle (s : Observed) (x y : String) : Prop := s.1.link x y = [] ∧ s.1.link y x = []

/-- The smaller node has kept its connection, the larger one has answered it on another than its
own, and the two belong together: each has the description that the other has made for it. -/
def Paired (api : Api) (s : Observed) (x y : String) (ix iy : PcId) : Prop :=
  ∃ id offer, offer.offerer = ix ∧ id ≠ iy ∧
    (s.1.node x).half y = some ⟨ix, .stable, some ⟨api.answerText id offer.text, ix⟩, true⟩ ∧
    (s.1.node y).half x = some ⟨id, .stable, some offer, true⟩

/-- Whatever is delivered, and in whatever order, the two nodes come to rest, and then one pair of
connections is left. -/
def Resolves (api : Api) (s : Observed) (x y : String) (ix iy : PcId) : Prop :=
  ∀ es, StepRun.EveryStep (Observed.step api) (Steady x y) s es →
    (∃ more, StepRun.EveryStep (Observed.step api) (Steady x y) s (es ++ more) ∧
      Idle (StepRun.run (Observed.step api) s (es ++ more)) x y) ∧
    (Idle (StepRun.run (Observed.step api) s es) x y →
      Paired api (StepRun.run (Observed.step api) s es) x y ix iy)

variable {api : Api} {s : Observed} {x y : String} {ix iy : PcId}

/-! ## What happens to the pair -/

theorem half_of_waiting {m : Mesh} {p : String} {id : PcId} (h : m.waiting p = some id) :
    ∃ l, m.half p = some l ∧ l.signaling = .haveLocalOffer ∧ l.id = id := by
  rw [Mesh.waiting] at h
  obtain ⟨conn, hlookup, hwaiting⟩ := Option.bind_eq_some_iff.mp h
  rw [PeerConn.waiting] at hwaiting
  split_ifs at hwaiting with hstate
  exact ⟨conn.half, Mesh.half_of_lookup hlookup, hstate, Option.some.inj hwaiting⟩

/-- What the step leaves alone, of the pair. -/
structure SamePair (x y : String) (s s' : Observed) : Prop where
  left : ∀ l, (s.1.node x).half y = some l → (s'.1.node x).half y = some l
  right : ∀ l, (s.1.node y).half x = some l → (s'.1.node y).half x = some l
  out : s'.1.link x y = s.1.link x y
  back : s'.1.link y x = s.1.link y x

theorem SamePair.refl (s : Observed) : SamePair x y s s :=
  ⟨fun _ h => h, fun _ h => h, rfl, rfl⟩

theorem SamePair.turn {i : String} {t : Turn} (h : Steady x y s (.turn i t)) :
    SamePair x y s (Observed.step api s (.turn i t)) := by
  have hhalf : ∀ {a b : String}, ¬Starting a b s (.turn i t) → ¬Leaving a b (.turn i t) →
      ∀ l, (s.1.node a).half b = some l →
        ((Observed.step api s (.turn i t)).1.node a).half b = some l := by
    intro a b hstarting hleaving l hl
    rw [node_turn]
    split_ifs with ha
    · subst ha
      exact (Mesh.turn_silent fun hstarts => hstarting ⟨rfl, hstarts⟩).2
        (fun hleaves => hleaving ⟨rfl, hleaves⟩) l hl
    · exact hl
  have hlink : ∀ {a b : String}, ¬Starting a b s (.turn i t) →
      (Observed.step api s (.turn i t)).1.link a b = s.1.link a b := by
    intro a b hstarting
    rw [link_turn]
    split_ifs with ha
    · subst ha
      rw [(Mesh.turn_silent fun hstarts => hstarting ⟨rfl, hstarts⟩).1, List.append_nil]
    · rw [List.append_nil]
  exact ⟨hhalf h.left h.stays, hhalf h.right h.remains, hlink h.left, hlink h.right⟩

theorem half_handle_of_ne (m : Mesh) (msg : Msg) {src p : String} (hp : p ≠ src) :
    (m.handle api (msg.input src ())).1.half p = m.half p := by
  cases msg with
  | offer sdp => exact (Mesh.about_onOffer m src sdp).others p hp
  | answer sdp => exact (Mesh.about_onAnswer m src sdp).others p hp

/-- A delivery between others, or from an empty link. -/
theorem SamePair.deliver {src dst : String} (hout : ¬(src = x ∧ dst = y))
    (hback : ¬(src = y ∧ dst = x)) : SamePair x y s (Observed.step api s (.deliver src dst)) := by
  cases hlink : s.1.link src dst with
  | nil =>
    rw [step_deliver_nil hlink]
    exact SamePair.refl s
  | cons msg rest =>
    have hhalf : ∀ {a b : String}, ¬(src = b ∧ dst = a) → ∀ l, (s.1.node a).half b = some l →
        ((Observed.step api s (.deliver src dst)).1.node a).half b = some l := by
      intro a b hab l hl
      rw [node_deliver hlink]
      split_ifs with ha
      · subst ha
        rw [half_handle_of_ne _ _ fun hb => hab ⟨hb.symm, rfl⟩]
        exact hl
      · exact hl
    have hkeeps : ∀ {a b : String}, ¬(src = a ∧ dst = b) → ¬(src = b ∧ dst = a) →
        (Observed.step api s (.deliver src dst)).1.link a b = s.1.link a b := by
      intro a b hab hba
      rw [link_deliver hlink, if_neg fun h => hab ⟨h.1.symm, h.2.symm⟩]
      split_ifs with ha
      · rw [sentTo_input_of_ne _ _ fun hb => hba ⟨hb.symm, ha.symm⟩, List.append_nil]
      · rw [List.append_nil]
    exact ⟨hhalf hback, hhalf hout, hkeeps hout hback, hkeeps hback hout⟩

/-- A delivery from `x` to `y` concerns the half of `y`, and what `y` sends back. -/
theorem deliver_self {msg : Msg} {rest : List Msg} (hne : x ≠ y)
    (hlink : s.1.link x y = msg :: rest) :
    ((Observed.step api s (.deliver x y)).1.node x).half y = (s.1.node x).half y ∧
      ((Observed.step api s (.deliver x y)).1.node y).half x =
        ((s.1.node y).handle api (msg.input x ())).1.half x ∧
      (Observed.step api s (.deliver x y)).1.link x y = rest ∧
      (Observed.step api s (.deliver x y)).1.link y x = s.1.link y x ++
        sentTo (sends ((s.1.node y).handle api (msg.input x ())).2) x := by
  refine ⟨?_, ?_, ?_, ?_⟩
  · rw [node_deliver hlink, if_neg hne]
  · rw [node_deliver hlink, if_pos rfl]
  · rw [link_deliver hlink, if_pos ⟨rfl, rfl⟩, if_neg hne, List.append_nil]
  · rw [link_deliver hlink, if_neg fun h => hne h.1.symm, if_pos rfl]

/-! ## How the glare ends -/

/-- The connection waits for the answer to its offer. -/
def Waits (s : Observed) (x y : String) (ix : PcId) : Prop :=
  ∃ l, (s.1.node x).half y = some l ∧ l.signaling = .haveLocalOffer ∧ l.id = ix

/-- The stages of the pair, from the crossing on: the offer of `x` is on its way, then the answer to
it, then the answer has arrived. -/
inductive Glare (api : Api) (s : Observed) (x y : String) (ix iy : PcId) : Prop where
  | offering (hwaits : Waits s x y ix)
    (hown : ∃ l, (s.1.node y).half x = some l ∧ l.idle = false ∧ l.id = iy)
    (hout : offers (s.1.link x y) = [ix]) (hback : answers (s.1.link y x) = [])
  | answered (id : PcId) (offer : Sdp) (pre : List Msg) (hwaits : Waits s x y ix)
    (hoffer : offer.offerer = ix) (hid : id ≠ iy)
    (hright : (s.1.node y).half x = some ⟨id, .stable, some offer, true⟩)
    (hout : offers (s.1.link x y) = [])
    (hback : s.1.link y x = pre ++ [.answer ⟨api.answerText id offer.text, ix⟩])
    (hpre : answers pre = [])
  | paired (hpaired : Paired api s x y ix iy) (hout : offers (s.1.link x y) = [])
    (hback : s.1.link y x = [])

theorem Waits.of_same {s' : Observed} (hsame : SamePair x y s s') (h : Waits s x y ix) :
    Waits s' x y ix :=
  let ⟨l, hl, hwaiting, hid⟩ := h
  ⟨l, hsame.left l hl, hwaiting, hid⟩

theorem Glare.of_same {s' : Observed} (hsame : SamePair x y s s') (h : Glare api s x y ix iy) :
    Glare api s' x y ix iy := by
  cases h with
  | offering hwaits hown hout hback =>
    obtain ⟨l, hl, hidle, hid⟩ := hown
    exact .offering (hwaits.of_same hsame) ⟨l, hsame.right l hl, hidle, hid⟩
      (by rw [hsame.out, hout]) (by rw [hsame.back, hback])
  | answered id offer pre hwaits hoffer hid hright hout hback hpre =>
    exact .answered id offer pre (hwaits.of_same hsame) hoffer hid (hsame.right _ hright)
      (by rw [hsame.out, hout]) (by rw [hsame.back, hback]) hpre
  | paired hpaired hout hback =>
    obtain ⟨id, offer, hoffer, hid, hleft, hright⟩ := hpaired
    exact .paired ⟨id, offer, hoffer, hid, hsame.left _ hleft, hsame.right _ hright⟩
      (by rw [hsame.out, hout]) (by rw [hsame.back, hback])

/-- An answer at a connection that has one already, or has never offered. -/
theorem onAnswer_stable {m : Mesh} {p : String} {l : Half} {sdp : Sdp} (hl : m.half p = some l)
    (hstable : l.signaling ≠ .haveLocalOffer) :
    (m.handle api ((Msg.answer sdp).input p ())).1.half p = some l :=
  (@Mesh.onAnswer_self api m p l sdp hl).1.trans (by rw [if_neg fun h => hstable h.2])

theorem sends_answer (m : Mesh) (p : String) (sdp : Sdp) :
    sends (m.handle api ((Msg.answer sdp).input p ())).2 = [] := Mesh.sends_onAnswer m p sdp

/-- What reaches the larger node: the offer of the smaller one, or answers that come to nothing. -/
theorem Glare.deliver_out (h : Glare api s x y ix iy) (hs : Sane api s) (hxy : x < y)
    {msg : Msg} {rest : List Msg} (hlink : s.1.link x y = msg :: rest) :
    Glare api (Observed.step api s (.deliver x y)) x y ix iy := by
  obtain ⟨hleft', hright', hout', hback'⟩ := @deliver_self api s x y msg rest hxy.ne hlink
  have hwaits' : Waits s x y ix → Waits (Observed.step api s (.deliver x y)) x y ix :=
    fun ⟨l, hl, hwaiting, hid⟩ => ⟨l, hleft'.trans hl, hwaiting, hid⟩
  cases msg with
  | answer sdp =>
    rw [sends_answer, FifoNet.sentTo_nil, List.append_nil] at hback'
    have hrest : offers (s.1.link x y) = offers rest := by
      rw [hlink]
      rfl
    cases h with
    | offering hwaits hown hout hback =>
      obtain ⟨l, hl, hidle, hid⟩ := hown
      have hnew := (@Mesh.onAnswer_self api _ x l sdp hl).1
      refine .offering (hwaits' hwaits) ⟨_, hright'.trans hnew, ?_, ?_⟩
        (by rw [hout', ← hrest, hout]) (by rw [hback', hback])
      · split_ifs
        · rfl
        · exact hidle
      · split_ifs
        · exact hid
        · exact hid
    | answered id offer pre hwaits hoffer hid hright hout hback hpre =>
      exact .answered id offer pre (hwaits' hwaits) hoffer hid
        (hright'.trans (onAnswer_stable hright nofun)) (by rw [hout', ← hrest, hout])
        (by rw [hback', hback]) hpre
    | paired hpaired hout hback =>
      obtain ⟨id, offer, hoffer, hid, hleft, hright⟩ := hpaired
      exact .paired ⟨id, offer, hoffer, hid, hleft'.trans hleft,
        hright'.trans (onAnswer_stable hright nofun)⟩ (by rw [hout', ← hrest, hout])
        (by rw [hback', hback])
  | offer sdp =>
    have hrest : offers (s.1.link x y) = sdp.offerer :: offers rest := by
      rw [hlink]
      rfl
    cases h with
    | offering hwaits hown hout hback =>
      obtain ⟨hoffer, hnone⟩ := List.cons.inj (hrest.symm.trans hout)
      obtain ⟨l, hl, hidle, hid⟩ := hown
      have hparses : api.parses sdp.text = true :=
        hs.parses x y (.offer sdp) (hlink ▸ List.mem_cons_self)
      rcases Mesh.onOffer_cases (hs.settled y) hparses with
        ⟨hless, -, -⟩ | ⟨id, hhalf, hsent, hnumber⟩
      · rw [hs.myId] at hless
        exact absurd hless hxy.not_gt
      · have hne : id ≠ iy := by
          rcases hnumber with ⟨-, rfl⟩ | ⟨-, l', hl', hidle', -⟩
          · rintro rfl
            have hlt := (hs.settled y x l hl).2
            rw [hid] at hlt
            exact lt_irrefl _ hlt
          · obtain rfl := Option.some.inj (hl.symm.trans hl')
            exact absurd (hidle.symm.trans hidle') Bool.false_ne_true
        have hanswer : sentTo (sends ((s.1.node y).handle api
            ((Msg.offer sdp).input x ())).2) x = _ := hsent
        rw [hanswer, hoffer] at hback'
        exact .answered id sdp (s.1.link y x) (hwaits' hwaits) hoffer hne (hright'.trans hhalf)
          (by rw [hout', hnone]) hback' hback
    | answered id offer pre hwaits hoffer hid hright hout hback hpre =>
      exact absurd (hrest.symm.trans hout) (List.cons_ne_nil _ _)
    | paired hpaired hout hback => exact absurd (hrest.symm.trans hout) (List.cons_ne_nil _ _)

/-- The smaller node ignores offers while it waits. -/
theorem Waits.ignores (h : Waits s x y ix) (hs : Sane api s) (hxy : x < y) (sdp : Sdp) :
    (s.1.node x).handle api ((Msg.offer sdp).input y ()) = (s.1.node x, []) := by
  obtain ⟨l, hl, hwaiting, -⟩ := h
  have hless : (s.1.node x).myId < y := (hs.myId x).symm ▸ hxy
  have hignored := @Mesh.onOffer_ignored api _ y l sdp hl hwaiting hless
  show (((s.1.node x).onOffer api y sdp).1, ((s.1.node x).onOffer api y sdp).2.1) = _
  rw [hignored]

/-- What reaches the smaller node: offers, which it ignores, and at last the answer to its own. -/
theorem Glare.deliver_back (h : Glare api s x y ix iy) (hs : Sane api s) (hxy : x < y)
    {msg : Msg} {rest : List Msg} (hlink : s.1.link y x = msg :: rest) :
    Glare api (Observed.step api s (.deliver y x)) x y ix iy := by
  obtain ⟨hright', hleft', hback', hout'⟩ := @deliver_self api s y x msg rest hxy.ne' hlink
  have hignored : ∀ sdp, msg = .offer sdp → Waits s x y ix →
      Waits (Observed.step api s (.deliver y x)) x y ix ∧
        (Observed.step api s (.deliver y x)).1.link x y = s.1.link x y := by
    rintro sdp rfl hwaits
    rw [hwaits.ignores hs hxy] at hleft' hout'
    obtain ⟨l, hl, hwaiting, hid⟩ := hwaits
    exact ⟨⟨l, hleft'.trans hl, hwaiting, hid⟩, by rw [hout']; exact List.append_nil _⟩
  cases h with
  | offering hwaits hown hout hback =>
    cases msg with
    | answer sdp =>
      rw [hlink] at hback
      exact absurd hback (List.cons_ne_nil _ _)
    | offer sdp =>
      obtain ⟨hwaits', hlinkOut⟩ := hignored sdp rfl hwaits
      obtain ⟨l, hl, hidle, hid⟩ := hown
      refine .offering hwaits' ⟨l, hright'.trans hl, hidle, hid⟩ (by rw [hlinkOut, hout]) ?_
      rw [hlink] at hback
      rw [hback']
      exact hback
  | answered id offer pre hwaits hoffer hid hright hout hback hpre =>
    cases pre with
    | nil =>
      obtain ⟨rfl, rfl⟩ := List.cons.inj (hlink.symm.trans hback)
      rw [sends_answer, FifoNet.sentTo_nil, List.append_nil] at hout'
      obtain ⟨l, hl, hwaiting, hlid⟩ := hwaits
      have hparses : api.parses (api.answerText id offer.text) = true :=
        hs.parses y x (.answer ⟨api.answerText id offer.text, ix⟩) (hlink ▸ List.mem_cons_self)
      have hnew := (@Mesh.onAnswer_self api _ y l ⟨api.answerText id offer.text, ix⟩ hl).1
      rw [if_pos ⟨hparses, hwaiting⟩, hlid] at hnew
      exact .paired ⟨id, offer, hoffer, hid, hleft'.trans hnew, hright'.trans hright⟩
        (by rw [hout', hout]) hback'
    | cons first pre =>
      obtain ⟨rfl, rfl⟩ := List.cons.inj (hlink.symm.trans hback)
      cases msg with
      | answer sdp => exact absurd hpre (List.cons_ne_nil _ _)
      | offer sdp =>
        obtain ⟨hwaits', hlinkOut⟩ := hignored sdp rfl hwaits
        exact .answered id offer pre hwaits' hoffer hid (hright'.trans hright)
          (by rw [hlinkOut, hout]) hback' hpre
  | paired hpaired hout hback => exact absurd (hlink.symm.trans hback) (List.cons_ne_nil _ _)

/-- An event is a turn or a delivery, of the pair or not. -/
theorem Steady.cases {ev : MeshEvent} (h : Steady x y s ev) :
    SamePair x y s (Observed.step api s ev) ∨ ev = .deliver x y ∨ ev = .deliver y x := by
  cases ev with
  | turn i t => exact Or.inl (SamePair.turn h)
  | deliver src dst =>
    by_cases hout : src = x ∧ dst = y
    · obtain ⟨rfl, rfl⟩ := hout
      exact Or.inr (Or.inl rfl)
    · by_cases hback : src = y ∧ dst = x
      · obtain ⟨rfl, rfl⟩ := hback
        exact Or.inr (Or.inr rfl)
      · exact Or.inl (SamePair.deliver hout hback)

theorem Glare.step (h : Glare api s x y ix iy) (hs : Sane api s) (hxy : x < y) {ev : MeshEvent}
    (hev : Steady x y s ev) : Glare api (Observed.step api s ev) x y ix iy := by
  rcases @Steady.cases api s x y ev hev with hsame | rfl | rfl
  · exact h.of_same hsame
  · cases hlink : s.1.link x y with
    | nil =>
      rw [step_deliver_nil hlink]
      exact h
    | cons msg rest => exact h.deliver_out hs hxy hlink
  · cases hlink : s.1.link y x with
    | nil =>
      rw [step_deliver_nil hlink]
      exact h
    | cons msg rest => exact h.deliver_back hs hxy hlink

theorem Glare.paired_of_idle (h : Glare api s x y ix iy) (hidle : Idle s x y) :
    Paired api s x y ix iy := by
  cases h with
  | offering hwaits hown hout hback =>
    rw [hidle.1] at hout
    exact nomatch hout
  | answered id offer pre hwaits hoffer hid hright hout hback hpre =>
    rw [hidle.2] at hback
    exact absurd hback.symm (List.append_ne_nil_of_right_ne_nil _ (List.cons_ne_nil _ _))
  | paired hpaired hout hback => exact hpaired

/-- Where the pair starts from. -/
theorem Crossing.glare (h : Crossing s x y ix iy) (howed : owed s.1 x y = [ix]) :
    Glare api s x y ix iy := by
  obtain ⟨l, hl, hwaiting, hid⟩ := half_of_waiting h.right
  have hidle : l.idle = false := by simp [Half.idle, hwaiting]
  have hsplit : answers (s.1.link y x) = [] ∧ offers (s.1.link x y) = [ix] := by
    rcases List.append_eq_singleton_iff.mp howed with hboth | ⟨-, hnone⟩
    · exact hboth
    · exact absurd (hnone ▸ h.out) List.not_mem_nil
  exact .offering (half_of_waiting h.left) ⟨l, hl, hidle, hid⟩ hsplit.2 hsplit.1

/-! ## Answers to earlier offers -/

/-- The connection has the answer to another offer, or another connection is in its place. -/
def Spoilt (s : Observed) (x y : String) (ix : PcId) : Prop :=
  ∃ l, (s.1.node x).half y = some l ∧ (l.id = ix → l.signaling ≠ .haveLocalOffer ∧
    l.remoteSet = true ∧ ∃ answer, l.remote = some answer ∧ answer.offerer ≠ ix)

/-- The next answer that the waiting connection gets is not its own, or that has happened. -/
inductive Stale (s : Observed) (x y : String) (ix : PcId) : Prop where
  | due (id : PcId) (later : List PcId) (hwaits : Waits s x y ix) (hid : id ≠ ix)
    (howed : owed s.1 x y = id :: later)
  | spoilt (hspoilt : Spoilt s x y ix)

theorem SamePair.owed {s' : Observed} (h : SamePair x y s s') : owed s'.1 x y = owed s.1 x y := by
  rw [Links.owed, Links.owed, h.out, h.back]

theorem Stale.of_same {s' : Observed} (hsame : SamePair x y s s') (h : Stale s x y ix) :
    Stale s' x y ix := by
  cases h with
  | due id later hwaits hid howed =>
    exact .due id later (hwaits.of_same hsame) hid (hsame.owed.trans howed)
  | spoilt hspoilt =>
    obtain ⟨l, hl, hstale⟩ := hspoilt
    exact .spoilt ⟨l, hsame.left l hl, hstale⟩

theorem Stale.deliver_out (h : Stale s x y ix) (hs : Sane api s) (hxy : x < y) :
    Stale (Observed.step api s (.deliver x y)) x y ix := by
  have hleft : ((Observed.step api s (.deliver x y)).1.node x).half y = (s.1.node x).half y := by
    cases hlink : s.1.link x y with
    | nil => rw [step_deliver_nil hlink]
    | cons msg rest => exact (deliver_self hxy.ne hlink).1
  cases h with
  | due id later hwaits hid howed =>
    obtain ⟨l, hl, hwaiting, hlid⟩ := hwaits
    exact .due id later ⟨l, hleft.trans hl, hwaiting, hlid⟩ hid ((hs.owed_answered hxy).trans howed)
  | spoilt hspoilt =>
    obtain ⟨l, hl, hstale⟩ := hspoilt
    exact .spoilt ⟨l, hleft.trans hl, hstale⟩

theorem Stale.deliver_back (h : Stale s x y ix) (hs : Sane api s) (hxy : x < y)
    (hix : ix.n < (s.1.node x).made) {msg : Msg} {rest : List Msg}
    (hlink : s.1.link y x = msg :: rest) :
    Stale (Observed.step api s (.deliver y x)) x y ix := by
  obtain ⟨-, hleft', hback', hout'⟩ := @deliver_self api s y x msg rest hxy.ne' hlink
  have hparses : api.parses msg.sdp.text = true :=
    hs.parses y x msg (hlink ▸ List.mem_cons_self)
  cases h with
  | due id later hwaits hid howed =>
    rw [owed, hlink] at howed
    cases msg with
    | offer sdp =>
      rw [hwaits.ignores hs hxy] at hleft' hout'
      obtain ⟨l, hl, hwaiting, hlid⟩ := hwaits
      refine .due id later ⟨l, hleft'.trans hl, hwaiting, hlid⟩ hid ?_
      rw [owed, hback', hout', sends_nil, FifoNet.sentTo_nil, List.append_nil]
      exact howed
    | answer sdp =>
      -- it is taken for the answer to the last offer
      obtain ⟨rfl, -⟩ := List.cons.inj howed
      obtain ⟨l, hl, hwaiting, hlid⟩ := hwaits
      have hnew := (@Mesh.onAnswer_self api _ y l sdp hl).1
      rw [if_pos ⟨hparses, hwaiting⟩] at hnew
      refine .spoilt ⟨_, hleft'.trans hnew, fun _ => ?_⟩
      exact ⟨SignalingState.noConfusion, rfl, sdp, rfl, hid⟩
  | spoilt hspoilt =>
    obtain ⟨l, hl, hstale⟩ := hspoilt
    cases msg with
    | answer sdp =>
      have hnew := (@Mesh.onAnswer_self api _ y l sdp hl).1
      refine .spoilt ⟨_, hleft'.trans hnew, ?_⟩
      split_ifs with htaken
      · exact fun hlid => absurd htaken.2 (hstale hlid).1
      · exact hstale
    | offer sdp =>
      rcases Mesh.onOffer_cases (hs.settled x) hparses with
        ⟨-, -, hignored⟩ | ⟨id, hhalf, -, hnumber⟩
      · refine .spoilt ⟨l, hleft'.trans ?_, hstale⟩
        have hsame : ((s.1.node x).onOffer api y sdp).1 = s.1.node x := congrArg Prod.fst hignored
        show ((s.1.node x).onOffer api y sdp).1.half y = some l
        rw [hsame, hl]
      · refine .spoilt ⟨_, hleft'.trans hhalf, fun hid => ?_⟩
        dsimp only at hid
        rcases hnumber with ⟨-, rfl⟩ | ⟨-, l', hl', hidle, rfl⟩
        · rw [← hid] at hix
          exact absurd hix (lt_irrefl _)
        · obtain rfl := Option.some.inj (hl.symm.trans hl')
          have hset := (hstale hid).2.1
          rw [Half.idle, hset, Bool.not_true, Bool.and_false] at hidle
          exact absurd hidle Bool.false_ne_true

theorem made_step (s : Observed) (ev : MeshEvent) (i : String) :
    (s.1.node i).made ≤ ((Observed.step api s ev).1.node i).made := by
  cases ev with
  | turn j t =>
    rw [node_turn]
    split_ifs with hi
    · subst hi
      exact (Mesh.handle_myId _ (.turn t)).2
    · exact le_rfl
  | deliver src dst =>
    cases hlink : s.1.link src dst with
    | nil => rw [step_deliver_nil hlink]
    | cons msg rest =>
      rw [node_deliver hlink]
      split_ifs with hi
      · subst hi
        exact (Mesh.handle_myId _ _).2
      · exact le_rfl

theorem Stale.step (h : Stale s x y ix) (hs : Sane api s) (hxy : x < y)
    (hix : ix.n < (s.1.node x).made) {ev : MeshEvent} (hev : Steady x y s ev) :
    Stale (Observed.step api s ev) x y ix := by
  rcases @Steady.cases api s x y ev hev with hsame | rfl | rfl
  · exact h.of_same hsame
  · exact h.deliver_out hs hxy
  · cases hlink : s.1.link y x with
    | nil =>
      rw [step_deliver_nil hlink]
      exact h
    | cons msg rest => exact h.deliver_back hs hxy hix hlink

theorem Stale.not_paired (h : Stale s x y ix) (hidle : Idle s x y) :
    ¬Paired api s x y ix iy := by
  rintro ⟨id, offer, -, -, hleft, -⟩
  cases h with
  | due id later hwaits hid howed =>
    rw [owed, hidle.1, hidle.2] at howed
    cases howed
  | spoilt hspoilt =>
    obtain ⟨l, hl, hstale⟩ := hspoilt
    obtain rfl := Option.some.inj (hleft.symm.trans hl)
    obtain ⟨-, -, answer, hanswer, hne⟩ := hstale rfl
    obtain rfl := Option.some.inj hanswer
    exact hne rfl

/-- The offers to come are the last ones, each made once; so what is owed first is stale if more is
owed than the answer to the last offer. -/
theorem Crossing.stale (h : Crossing s x y ix iy) (hs : Sane api s) (hlatest : Latest s)
    (hxy : x < y) (howed : owed s.1 x y ≠ [ix]) : Stale s x y ix := by
  have hmem : ix ∈ owed s.1 x y := List.mem_append_right _ h.out
  have hsuffix := hs.owed x y hxy
  have hnodup : (owed s.1 x y).Nodup := hsuffix.sublist.nodup (hs.nodup x y)
  have hlast : (owed s.1 x y).getLast? = some ix := by
    have hlog := hlatest x y ix h.left
    obtain ⟨before, hbefore⟩ := hsuffix
    rw [← hbefore, List.getLast?_append_of_ne_nil _ (List.ne_nil_of_mem hmem)] at hlog
    exact hlog
  cases hcons : owed s.1 x y with
  | nil =>
    rw [hcons] at hmem
    exact absurd hmem List.not_mem_nil
  | cons id later =>
    refine .due id later (half_of_waiting h.left) ?_ hcons
    rintro rfl
    rw [hcons] at hlast hnodup howed
    cases later with
    | nil => exact howed rfl
    | cons id' later =>
      rw [List.getLast?_cons_cons] at hlast
      exact (List.nodup_cons.mp hnodup).1 (List.mem_of_getLast? hlast)

/-! ## Coming to rest -/

/-- What a message may still cause. -/
def Msg.weight : Msg → ℕ
  | .offer _ => 2
  | .answer _ => 1

def weight (msgs : List Msg) : ℕ := (msgs.map Msg.weight).sum

theorem weight_sent (m : Mesh) (msg : Msg) (src : String) :
    weight (sentTo (sends (m.handle api (msg.input src ())).2) src) < msg.weight := by
  cases msg with
  | answer sdp =>
    rw [sends_answer, FifoNet.sentTo_nil]
    exact Nat.one_pos
  | offer sdp =>
    have hsends : sends (m.handle api ((Msg.offer sdp).input src ())).2 = [] ∨
        ∃ text, sends (m.handle api ((Msg.offer sdp).input src ())).2 =
          [(src, .answer ⟨text, sdp.offerer⟩)] := Mesh.sends_onOffer m src sdp
    rcases hsends with hnil | ⟨text, hone⟩
    · rw [hnil, FifoNet.sentTo_nil]
      exact Nat.two_pos
    · rw [hone, FifoNet.sentTo_singleton, if_pos rfl]
      exact Nat.one_lt_two

theorem steady_deliver (x y src dst : String) (s : Observed) :
    Steady x y s (.deliver src dst) := ⟨id, id, id, id⟩

theorem weight_deliver (hne : x ≠ y) {msg : Msg} {rest : List Msg}
    (hlink : s.1.link x y = msg :: rest) :
    weight ((Observed.step api s (.deliver x y)).1.link x y) +
        weight ((Observed.step api s (.deliver x y)).1.link y x) <
      weight (s.1.link x y) + weight (s.1.link y x) := by
  obtain ⟨-, -, hout, hback⟩ := @deliver_self api s x y msg rest hne hlink
  have hsent := @weight_sent api (s.1.node y) msg x
  rw [hout, hback, hlink]
  simp only [weight, List.map_append, List.sum_append, List.map_cons, List.sum_cons] at hsent ⊢
  omega

/-- Deliveries alone bring the pair to rest. -/
theorem comes_to_rest (api : Api) (hne : x ≠ y) (s : Observed) :
    ∃ es, StepRun.EveryStep (Observed.step api) (Steady x y) s es ∧
      Idle (StepRun.run (Observed.step api) s es) x y := by
  induction hw : weight (s.1.link x y) + weight (s.1.link y x) using Nat.strong_induction_on
    generalizing s with
  | _ w ih =>
    have hgo : ∀ src dst, weight ((Observed.step api s (.deliver src dst)).1.link x y) +
        weight ((Observed.step api s (.deliver src dst)).1.link y x) < w →
        ∃ es, StepRun.EveryStep (Observed.step api) (Steady x y) s es ∧
          Idle (StepRun.run (Observed.step api) s es) x y := by
      intro src dst hlt
      obtain ⟨es, hsteady, hidle⟩ := ih _ hlt _ rfl
      exact ⟨.deliver src dst :: es, ⟨steady_deliver x y src dst s, hsteady⟩, hidle⟩
    cases hout : s.1.link x y with
    | cons msg rest => exact hgo x y (hw ▸ weight_deliver hne hout)
    | nil =>
      cases hback : s.1.link y x with
      | nil => exact ⟨[], trivial, hout, hback⟩
      | cons msg rest =>
        have hlt := @weight_deliver api s y x hne.symm msg rest hback
        exact hgo y x (by omega)

/-- The crossing resolves exactly if the smaller node is owed nothing but the answer to its last
offer. -/
theorem resolves_iff (hs : Sane api s) (hlatest : Latest s) (hapi : api.Lawful) (hxy : x < y)
    (h : Crossing s x y ix iy) : Resolves api s x y ix iy ↔ owed s.1 x y = [ix] := by
  have hrest := comes_to_rest api hxy.ne
  constructor
  · intro hresolves
    by_contra howed
    have hix : ix.n < (s.1.node x).made := by
      obtain ⟨l, hl, -, hid⟩ := half_of_waiting h.left
      exact hid ▸ (hs.settled x y l hl).2
    obtain ⟨es, hsteady, hidle⟩ := hrest s
    have hstale : (Sane api (StepRun.run (Observed.step api) s es) ∧
        ix.n < ((StepRun.run (Observed.step api) s es).1.node x).made) ∧
        Stale (StepRun.run (Observed.step api) s es) x y ix :=
      StepRun.run_invariant
        (I := fun s : Observed => (Sane api s ∧ ix.n < (s.1.node x).made) ∧ Stale s x y ix)
        (fun s ev h hev => ⟨⟨h.1.1.step hapi ev, h.1.2.trans_le (made_step s ev x)⟩,
          h.2.step h.1.1 hxy h.1.2 hev⟩)
        ⟨⟨hs, hix⟩, h.stale hs hlatest hxy howed⟩ hsteady
    exact hstale.2.not_paired hidle ((hresolves es hsteady).2 hidle)
  · intro howed es hsteady
    have hglare : Sane api (StepRun.run (Observed.step api) s es) ∧
        Glare api (StepRun.run (Observed.step api) s es) x y ix iy :=
      StepRun.run_invariant (I := fun s : Observed => Sane api s ∧ Glare api s x y ix iy)
        (fun s ev h hev => ⟨h.1.step hapi ev, h.2.step h.1 hxy hev⟩) ⟨hs, h.glare howed⟩ hsteady
    refine ⟨?_, fun hidle => hglare.2.paired_of_idle hidle⟩
    obtain ⟨more, hmore, hidle⟩ := hrest (StepRun.run (Observed.step api) s es)
    refine ⟨more, (StepRun.everyStep_append _ _ _ _).mpr ⟨hsteady, hmore⟩, ?_⟩
    rw [StepRun.run_append]
    exact hidle

theorem sane_run (hapi : api.Lawful) (es : List MeshEvent) :
    Sane api (StepRun.run (Observed.step api) Observed.init es) ∧
      Latest (StepRun.run (Observed.step api) Observed.init es) :=
  ⟨StepRun.run_invariant_of_step (fun _ ev h => h.step hapi ev) es (Sane.init api),
    StepRun.run_invariant_of_step (fun _ ev h => h.step ev) es Latest.init⟩

/-- Of each pair of nodes only the smaller one offers when both handle the same event, once.  Where
offers cross nevertheless, the offer of the smaller node is answered, and no other pair of
connections is left, exactly if no earlier offer of it is on its way nor an answer to one. -/
theorem glare_iff (hapi : api.Lawful) (hxy : x < y) (pre : List MeshEvent) :
    (∀ es, Joint x y es → StepRun.EveryStep (Observed.step api) (Linked x y)
        (StepRun.run (Observed.step api) Observed.init pre) es →
      ((StepRun.run (Observed.step api) Observed.init (pre ++ es)).2 x y).length =
          ((StepRun.run (Observed.step api) Observed.init pre).2 x y).length + 1 ∧
        ((StepRun.run (Observed.step api) Observed.init (pre ++ es)).2 y x).length =
          ((StepRun.run (Observed.step api) Observed.init pre).2 y x).length) ∧
    ∀ ix iy, Crossing (StepRun.run (Observed.step api) Observed.init pre) x y ix iy →
      (Resolves api (StepRun.run (Observed.step api) Observed.init pre) x y ix iy ↔
        owed (StepRun.run (Observed.step api) Observed.init pre).1 x y = [ix]) := by
  obtain ⟨hs, hlatest⟩ := sane_run hapi pre
  refine ⟨fun es hjoint hlinked => ?_, fun ix iy h => resolves_iff hs hlatest hapi hxy h⟩
  rw [StepRun.run_append]
  exact offers_once hs hapi hxy hjoint hlinked

theorem lenientApi_lawful : lenientApi.Lawful := ⟨fun _ => rfl, fun _ _ => rfl⟩

/-- Two nodes see each other; or both relink before either offer is delivered. -/
theorem glare_iff_relinked :
    ((StepRun.run (Observed.step lenientApi) Observed.init
        ([] ++ [.turn "a" (.onPeer "b"), .turn "b" (.onPeer "a")])).2 "a" "b").length = 1 ∧
      Resolves lenientApi (StepRun.run (Observed.step lenientApi) Observed.init
        [.turn "a" (.relink "b"), .turn "b" (.relink "a")]) "a" "b" ⟨"a", 0⟩ ⟨"b", 0⟩ := by
  have hless : "a" < "b" := by decide
  constructor
  · exact ((glare_iff lenientApi_lawful hless []).1
      [.turn "a" (.onPeer "b"), .turn "b" (.onPeer "a")] (Or.inl (List.Perm.refl _))
      ⟨trivial, trivial, trivial⟩).1
  · exact ((glare_iff lenientApi_lawful hless _).2 _ _
      ⟨by decide +kernel, by decide +kernel, by decide +kernel, by decide +kernel⟩).mpr
      (by decide +kernel)

/-- "a" offers again before "b" has answered, and "b" offers at the same time. -/
def relinkedTwice : List MeshEvent :=
  [.turn "a" (.onPeer "b"), .turn "a" (.relink "b"), .turn "b" (.relink "a")]

/-- Everything arrives. -/
def arrivals : List MeshEvent :=
  [.deliver "a" "b", .deliver "a" "b", .deliver "b" "a", .deliver "b" "a", .deliver "b" "a"]

/-- "a" puts the answer to its first offer on its second connection. -/
theorem crossing_spoilt : ¬∀ (api : Api), api.Lawful → ∀ x y : String, x < y →
    ∀ (pre : List MeshEvent) (ix iy : PcId),
      Crossing (StepRun.run (Observed.step api) Observed.init pre) x y ix iy →
        Resolves api (StepRun.run (Observed.step api) Observed.init pre) x y ix iy := by
  intro h
  have hresolves := h lenientApi lenientApi_lawful "a" "b" (by decide) relinkedTwice ⟨"a", 1⟩
    ⟨"b", 0⟩ ⟨by decide +kernel, by decide +kernel, by decide +kernel, by decide +kernel⟩ arrivals
    ⟨steady_deliver .., steady_deliver .., steady_deliver .., steady_deliver ..,
      steady_deliver .., trivial⟩
  obtain ⟨id, offer, -, -, hleft, -⟩ := hresolves.2 ⟨by decide +kernel, by decide +kernel⟩
  have hspoilt : ((StepRun.run (Observed.step lenientApi)
      (StepRun.run (Observed.step lenientApi) Observed.init relinkedTwice) arrivals).1.node
        "a").half "b" = some ⟨⟨"a", 1⟩, .stable, some ⟨"", ⟨"a", 0⟩⟩, true⟩ := by decide +kernel
  rw [hspoilt] at hleft
  exact absurd hleft (by simp)

end Subraum.Links
