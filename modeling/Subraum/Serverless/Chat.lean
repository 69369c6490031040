import Subraum.DataChannel.FrameLimits
import Subraum.Lib.Utf8

/-!
# Chat without a server (`companion-core/src/serverless.rs`)

`send_chat` spawns a task, which echoes the line only once it has been sent and says why if it
cannot be.  The tasks may run in any order, so the echoes may stand in another order than the lines
arrive in; but none is lost or doubled, and none is cut (`echoes_arrive`).

The JSON of a message is made and read by `serde_json`, which is a parameter.
-/

namespace Subraum.Serverless

open Crypto Protocol RustStr
open DataChannel (boundedChat maxChatChars)

/-- `MAX_CHAT_BYTES`. -/
def maxChatBytes : ℕ := 4 * 1024

/-- `serde_json` on a `ChatMsg` alone: `to_string` and `from_slice`. -/
structure ChatCodec where
  toString : ChatMsg → Option String
  fromSlice : Bytes → Option ChatMsg

/-- A text and a number can always be written, and are read back. -/
def ChatCodec.RoundTrips (C : ChatCodec) : Prop :=
  ∀ msg, ∃ text, C.toString msg = some text ∧ C.fromSlice (utf8 text) = some msg

inductive UiEvent where
  | chat (sender text : String)
  | log (text : String)

/-- `wire_chat`, on a message. -/
def onMessage (C : ChatCodec) (data : Bytes) : List UiEvent :=
  if maxChatBytes < data.length then []
  else
    match C.fromSlice data with
    | none => []
    | some c =>
      let text := if maxChatChars < c.text.length then takeChars maxChatChars c.text else c.text
      [.chat "Peer" text]

/-- A task of `send_chat`. -/
inductive Task where
  /-- With the DataChannel that stood in the slot, if there was one. -/
  | spawned (text : String) (wired : Bool)
  /-- `send_text` was called, and will return. -/
  | sent (text : String)

/-- One side sends, the other one shows. -/
structure Chat where
  me : String
  /-- There is a DataChannel in the slot. -/
  wired : Bool
  tasks : List Task
  /-- The messages under way, the oldest first. -/
  channel : List Bytes
  /-- The lines that were sent. -/
  left : List String
  here : List UiEvent
  there : List UiEvent

def Chat.init (me : String) : Chat := ⟨me, false, [], [], [], [], []⟩

inductive ChatEvent where
  | wire
  /-- The command `send_chat`. -/
  | sendChat (text : String)
  /-- A task goes on until it has called `send_text`, which fails if the channel is not open. -/
  | run (i : ℕ) (ts : BitVec 64) (opened : Bool)
  | returns (i : ℕ)
  | deliver

def Chat.step (C : ChatCodec) (s : Chat) : ChatEvent → Chat
  | .wire => { s with wired := true }
  | .sendChat text =>
    match boundedChat text with
    | none => s
    | some text => { s with tasks := s.tasks ++ [.spawned text s.wired] }
  | .run i ts opened =>
    match s.tasks[i]? with
    | some (.spawned text wired) =>
      let failed (why : String) : Chat :=
        { s with tasks := s.tasks.eraseIdx i, here := s.here ++ [.log why] }
      if !wired then failed "Chat: noch nicht verbunden"
      else
        match C.toString ⟨text, ts⟩ with
        | none => { s with tasks := s.tasks.eraseIdx i }
        | some j =>
          if maxChatBytes < j.utf8ByteSize then failed "Chat: Nachricht zu lang"
          else if !opened then failed "Chat: Senden fehlgeschlagen"
          else
            { s with
              tasks := s.tasks.set i (.sent text)
              channel := s.channel ++ [utf8 j]
              left := s.left ++ [text] }
    | _ => s
  | .returns i =>
    match s.tasks[i]? with
    | some (.sent text) =>
      { s with tasks := s.tasks.eraseIdx i, here := s.here ++ [.chat s.me text] }
    | _ => s
  | .deliver =>
    match s.channel with
    | [] => s
    | data :: channel => { s with channel := channel, there := s.there ++ onMessage C data }

variable {C : ChatCodec}

/-- What was sent is shown whole. -/
theorem onMessage_toString (hC : C.RoundTrips) {text j : String} {ts : BitVec 64}
    (hj : C.toString ⟨text, ts⟩ = some j) (hsize : j.utf8ByteSize ≤ maxChatBytes)
    (hlen : text.length ≤ maxChatChars) : onMessage C (utf8 j) = [.chat "Peer" text] := by
  obtain ⟨j', hj', hread⟩ := hC ⟨text, ts⟩
  obtain rfl : j = j' := Option.some.inj (hj.symm.trans hj')
  rw [onMessage, if_neg (by rw [DataChannel.length_utf8]; omega), hread]
  simp only
  rw [if_neg (by omega)]

/-! ## What a run keeps -/

/-- The lines that a user sees of what was said. -/
def said : UiEvent → Option String
  | .chat _ text => some text
  | .log _ => none

def returning : Task → Option String
  | .spawned _ _ => none
  | .sent text => some text

def Task.text : Task → String
  | .spawned text _ | .sent text => text

/-- What holds between two steps. -/
structure ChatInv (C : ChatCodec) (s : Chat) : Prop where
  short : ∀ t ∈ s.tasks, t.text.length ≤ maxChatChars
  /-- What was sent is shown there, or will be. -/
  arrives : s.there ++ s.channel.flatMap (onMessage C) = s.left.map (.chat "Peer")
  /-- It is shown here, or will be. -/
  echoed : (s.here.filterMap said ++ s.tasks.filterMap returning).Perm s.left

theorem chatInv_init (C : ChatCodec) (me : String) : ChatInv C (Chat.init me) where
  short _ h := absurd h List.not_mem_nil
  arrives := rfl
  echoed := .nil

/-- Taking a task out of the list. -/
theorem perm_of_getElem? {α : Type*} {l : List α} {i : ℕ} {a : α} (h : l[i]? = some a) :
    (a :: l.eraseIdx i).Perm l ∧ ∀ b, (l.set i b).Perm (b :: l.eraseIdx i) := by
  obtain ⟨hi, rfl⟩ := List.getElem?_eq_some_iff.mp h
  exact ⟨List.getElem_cons_eraseIdx_perm hi, List.set_perm_cons_eraseIdx hi⟩

theorem length_of_boundedChat {raw text : String} (h : boundedChat raw = some text) :
    text.length ≤ maxChatChars := (DataChannel.boundedChat_spec h)

theorem perm_waiting {tasks : List Task} {i : ℕ} {text : String} {wired : Bool}
    (htask : tasks[i]? = some (.spawned text wired)) :
    ((tasks.eraseIdx i).filterMap returning).Perm (tasks.filterMap returning) := by
  have hperm := (perm_of_getElem? htask).1.filterMap returning
  rwa [List.filterMap_cons_none rfl] at hperm

/-- A task that ends with a reason says nothing. -/
theorem ChatInv.fails {s : Chat} (h : ChatInv C s) {i : ℕ} {text : String} {wired : Bool}
    (htask : s.tasks[i]? = some (.spawned text wired)) (why : String) :
    ChatInv C { s with tasks := s.tasks.eraseIdx i, here := s.here ++ [.log why] } := by
  refine ⟨fun t ht => h.short t (List.mem_of_mem_eraseIdx ht), h.arrives, ?_⟩
  rw [List.filterMap_append, List.filterMap_cons_none rfl, List.filterMap_nil, List.append_nil]
  exact ((perm_waiting htask).append_left _).trans h.echoed

/-- A line that leaves is on the channel, and its task has still to return. -/
theorem ChatInv.leaves (hC : C.RoundTrips) {s : Chat} (h : ChatInv C s) {i : ℕ} {text j : String}
    {wired : Bool} {ts : BitVec 64} (htask : s.tasks[i]? = some (.spawned text wired))
    (hj : C.toString ⟨text, ts⟩ = some j) (hsize : j.utf8ByteSize ≤ maxChatBytes) :
    ChatInv C { s with
      tasks := s.tasks.set i (.sent text)
      channel := s.channel ++ [utf8 j]
      left := s.left ++ [text] } := by
  have hshort : text.length ≤ maxChatChars := h.short _ (List.mem_of_getElem? htask)
  obtain ⟨-, hset⟩ := perm_of_getElem? htask
  refine ⟨fun t ht => ?_, ?_, ?_⟩
  · rcases List.mem_cons.mp ((hset _).subset ht) with rfl | ht
    · exact hshort
    · exact h.short t (List.mem_of_mem_eraseIdx ht)
  · show s.there ++ (s.channel ++ [_]).flatMap (onMessage C) = (s.left ++ [text]).map _
    rw [List.flatMap_append, List.flatMap_cons, List.flatMap_nil, List.append_nil,
      ← List.append_assoc, h.arrives, onMessage_toString hC hj hsize hshort, List.map_append,
      List.map_singleton]
  · have hsent := (hset (.sent text)).filterMap returning
    rw [List.filterMap_cons_some (f := returning) rfl] at hsent
    have hnow : (s.here.filterMap said ++ (text :: s.tasks.filterMap returning)).Perm
        (s.left ++ [text]) :=
      (List.perm_middle.trans (h.echoed.cons text)).trans (List.perm_append_singleton _ _).symm
    exact ((hsent.trans ((perm_waiting htask).cons text)).append_left _).trans hnow

theorem ChatInv.step (hC : C.RoundTrips) {s : Chat} (h : ChatInv C s) (ev : ChatEvent) :
    ChatInv C (s.step C ev) := by
  cases ev with
  | wire => exact ⟨h.short, h.arrives, h.echoed⟩
  | sendChat raw =>
    simp only [Chat.step]
    split
    · exact h
    · rename_i text htext
      refine ⟨fun t ht => ?_, h.arrives, ?_⟩
      · rcases List.mem_append.mp ht with ht | ht
        · exact h.short t ht
        · rw [List.mem_singleton.mp ht]
          exact length_of_boundedChat htext
      · rw [List.filterMap_append, List.filterMap_cons_none rfl, List.filterMap_nil,
          List.append_nil]
        exact h.echoed
  | run i ts opened =>
    simp only [Chat.step]
    split
    · rename_i text wired htask
      split
      · exact h.fails htask _
      obtain ⟨j, hj, -⟩ := hC ⟨text, ts⟩
      rw [hj]
      dsimp only
      split
      · exact h.fails htask _
      rename_i hsize
      split
      · exact h.fails htask _
      exact h.leaves hC htask hj (by omega)
    · exact h
  | returns i =>
    simp only [Chat.step]
    split
    · rename_i text htask
      obtain ⟨hout, -⟩ := perm_of_getElem? htask
      refine ⟨fun t ht => h.short t (List.mem_of_mem_eraseIdx ht), h.arrives, ?_⟩
      have hperm := hout.filterMap returning
      rw [List.filterMap_cons_some (f := returning) rfl] at hperm
      show ((s.here ++ [UiEvent.chat s.me text]).filterMap said ++ _).Perm s.left
      rw [List.filterMap_append, List.filterMap_cons_some (f := said) rfl, List.filterMap_nil,
        List.append_assoc, List.singleton_append]
      exact (hperm.append_left _).trans h.echoed
    · exact h
  | deliver =>
    simp only [Chat.step]
    split
    · exact h
    · rename_i data channel hchannel
      refine ⟨h.short, ?_, h.echoed⟩
      rw [← h.arrives, hchannel, List.flatMap_cons, List.append_assoc]

/-- The command is taken: a task will answer it. -/
def ChatEvent.asks : ChatEvent → Bool
  | .sendChat text => (boundedChat text).isSome
  | _ => false

theorem answered_step (hC : C.RoundTrips) (s : Chat) (ev : ChatEvent) :
    (s.step C ev).here.length + (s.step C ev).tasks.length =
      s.here.length + s.tasks.length + ev.asks.toNat := by
  have herase {i : ℕ} {t : Task} (h : s.tasks[i]? = some t) :
      (s.tasks.eraseIdx i).length + 1 = s.tasks.length :=
    (perm_of_getElem? h).1.length_eq
  cases ev with
  | wire => rfl
  | deliver =>
    simp only [Chat.step]
    split <;> rfl
  | sendChat raw =>
    simp only [Chat.step, ChatEvent.asks]
    cases boundedChat raw with
    | none => rfl
    | some text => simp [Nat.add_assoc]
  | returns i =>
    simp only [Chat.step, ChatEvent.asks]
    split
    · rename_i text htask
      have hlen := herase htask
      simp only [List.length_append, List.length_singleton, Bool.toNat_false]
      omega
    · rfl
  | run i ts opened =>
    simp only [Chat.step, ChatEvent.asks]
    split
    · rename_i text wired htask
      have hlen := herase htask
      obtain ⟨j, hj, -⟩ := hC ⟨text, ts⟩
      rw [hj]
      dsimp only
      split_ifs <;>
        (simp only [List.length_append, List.length_singleton, List.length_set, Bool.toNat_false]
         omega)
    · rfl

theorem answered_run (hC : C.RoundTrips) (s : Chat) (es : List ChatEvent) :
    (StepRun.run (Chat.step C) s es).here.length +
        (StepRun.run (Chat.step C) s es).tasks.length =
      s.here.length + s.tasks.length + es.countP ChatEvent.asks := by
  induction es generalizing s with
  | nil => rfl
  | cons ev es ih =>
    rw [StepRun.run_cons, ih, answered_step hC, List.countP_cons]
    cases ev.asks
    · simp
    · simp only [Bool.toNat_true, if_true]
      omega

/-- The other side shows what was sent, whole and in order, and this side shows each line that was
sent once, though maybe in another order: in the end both show the same lines.  And each command
that is taken is answered once. -/
theorem echoes_arrive (hC : C.RoundTrips) (me : String) (es : List ChatEvent) :
    let s := StepRun.run (Chat.step C) (Chat.init me) es
    s.there ++ s.channel.flatMap (onMessage C) = s.left.map (.chat "Peer") ∧
    (s.here.filterMap said ++ s.tasks.filterMap returning).Perm s.left ∧
    (s.tasks = [] → s.channel = [] → (s.here.filterMap said).Perm (s.there.filterMap said)) ∧
    s.here.length + s.tasks.length = es.countP ChatEvent.asks := by
  obtain ⟨-, harrives, hechoed⟩ :=
    StepRun.run_invariant_of_step (fun _ ev h => h.step hC ev) es (chatInv_init C me)
  have hanswered := answered_run hC (Chat.init me) es
  generalize StepRun.run (Chat.step C) (Chat.init me) es = s at *
  refine ⟨harrives, hechoed, fun htasks hchannel => ?_, ?_⟩
  · rw [hchannel, List.flatMap_nil, List.append_nil] at harrives
    rw [htasks, List.filterMap_nil, List.append_nil] at hechoed
    have hall : s.left.filterMap (said ∘ UiEvent.chat "Peer") = s.left := List.filterMap_some
    rw [harrives, List.filterMap_map, hall]
    exact hechoed
  · simpa [Chat.init] using hanswered

def hiText : String := "\x7b\"text\":\"hi\",\"ts\":5\x7d"

/-- A codec that knows the JSON of one message, and writes the others in a way of its own. -/
def hiCodec : ChatCodec where
  toString msg :=
    if msg = ⟨"hi", 5⟩ then some hiText
    else some (String.ofList (List.replicate msg.ts.toNat 'x' ++ ':' :: msg.text.toList))
  fromSlice bytes :=
    if bytes = utf8 hiText then some ⟨"hi", 5⟩
    else (fromUtf8 bytes).map fun text =>
      ⟨String.ofList ((text.toList.dropWhile (· = 'x')).drop 1),
        BitVec.ofNat 64 (text.toList.takeWhile (· = 'x')).length⟩

theorem hiCodec_roundTrips : hiCodec.RoundTrips := by
  intro msg
  by_cases hhi : msg = ⟨"hi", 5⟩
  · exact ⟨hiText, if_pos hhi, (if_pos rfl).trans (congrArg some hhi.symm)⟩
  · refine ⟨_, if_neg hhi, ?_⟩
    have hother : utf8 (String.ofList (List.replicate msg.ts.toNat 'x' ++
        ':' :: msg.text.toList)) ≠ utf8 hiText := by
      -- the JSON begins with a brace
      intro heq
      have hhead := congrArg (fun text => text.toList.head?) (toUTF8_toList_injective heq)
      simp only [String.toList_ofList] at hhead
      cases hn : msg.ts.toNat with
      | zero =>
        rw [hn] at hhead
        exact absurd (Option.some.inj hhead) (by decide)
      | succ n =>
        rw [hn, List.replicate_succ] at hhead
        exact absurd (Option.some.inj hhead) (by decide)
    have hxs : ∀ c ∈ List.replicate msg.ts.toNat 'x', decide (c = 'x') = true := fun c hc =>
      decide_eq_true (List.eq_of_mem_replicate hc)
    have hcolon : ¬decide (':' = 'x') = true := by decide
    have hdrop : (List.replicate msg.ts.toNat 'x' ++ ':' :: msg.text.toList).dropWhile
        (fun c => decide (c = 'x')) = ':' :: msg.text.toList := by
      rw [List.dropWhile_append_of_pos hxs]
      exact List.dropWhile_cons_of_neg hcolon
    have htake : (List.replicate msg.ts.toNat 'x' ++ ':' :: msg.text.toList).takeWhile
        (fun c => decide (c = 'x')) = List.replicate msg.ts.toNat 'x' := by
      have hnone : (':' :: msg.text.toList).takeWhile (fun c => decide (c = 'x')) = [] :=
        List.takeWhile_cons_of_neg hcolon
      rw [List.takeWhile_append_of_pos hxs, hnone, List.append_nil]
    refine (if_neg hother).trans ?_
    rw [utf8, fromUtf8_toUTF8, Option.map_some, String.toList_ofList, hdrop, htake,
      List.length_replicate, BitVec.ofNat_toNat, BitVec.setWidth_eq, List.drop_one, List.tail_cons,
      String.ofList_toList]

/-- "hi" is sent, and arrives before it is echoed. -/
def hiSent : List ChatEvent := [.wire, .sendChat "hi", .run 0 5 true, .deliver, .returns 0]

theorem echoes_arrive_hi :
    (StepRun.run (Chat.step hiCodec) (Chat.init "a") hiSent).here.filterMap said = ["hi"] := by
  have hperm := (echoes_arrive hiCodec_roundTrips "a" hiSent).2.2.1 (by decide +kernel)
    (by decide +kernel)
  have hthere : (StepRun.run (Chat.step hiCodec) (Chat.init "a") hiSent).there.filterMap said =
      ["hi"] := by decide +kernel
  rw [hthere] at hperm
  exact hperm.eq_singleton

end Subraum.Serverless
