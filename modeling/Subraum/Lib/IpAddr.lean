import Mathlib.Data.List.Basic

/-!
# IP addresses and their texts (`std::net::IpAddr`)

An IPv4 address is written in decimal.  An IPv6 address is written in hexadecimal, with `::` for the
first of its longest runs of zeros, and one that stands for an IPv4 address ends in that.
-/

inductive IpAddr where
  | v4 (a b c d : Fin 256)
  | v6 (segments : Vector (Fin 65536) 8)
deriving DecidableEq

namespace IpAddr

def isLoopback : IpAddr → Bool
  | v4 a _ _ _ => a = 127
  | v6 segments => segments.toList = [0, 0, 0, 0, 0, 0, 0, 1]

/-- A run of segments. -/
structure Span where
  start : ℕ
  len : ℕ

/-- The first of the longest runs of zeros, and the run that is underway. -/
def scan (s : Span × Span) (segment : Fin 65536 × ℕ) : Span × Span :=
  if segment.1 = 0 then
    let current : Span := ⟨if s.2.len = 0 then segment.2 else s.2.start, s.2.len + 1⟩
    (if s.1.len < current.len then current else s.1, current)
  else (s.1, ⟨0, 0⟩)

def zeroes (segments : List (Fin 65536)) : Span :=
  (segments.zipIdx.foldl scan (⟨0, 0⟩, ⟨0, 0⟩)).1

def hex (n : ℕ) : List Char := Nat.toDigits 16 n

def decimal (n : ℕ) : List Char := Nat.toDigits 10 n

/-- `fmt_subslice`. -/
def fmtSubslice (chunk : List (Fin 65536)) : List Char :=
  [':'].intercalate (chunk.map fun segment => hex segment.val)

def fmtV4 (a b c d : ℕ) : List Char :=
  ['.'].intercalate [decimal a, decimal b, decimal c, decimal d]

/-- `to_ipv4_mapped`. -/
def toIpv4Mapped (segments : List (Fin 65536)) : Option (List Char) :=
  match segments with
  | [0, 0, 0, 0, 0, 65535, ab, cd] =>
    some (fmtV4 (ab.val / 256) (ab.val % 256) (cd.val / 256) (cd.val % 256))
  | _ => none

def fmtV6 (segments : List (Fin 65536)) : List Char :=
  match toIpv4Mapped segments with
  | some ipv4 => [':', ':'] ++ hex 0xFFFF ++ [':'] ++ ipv4
  | none =>
    let zeroes := zeroes segments
    if 1 < zeroes.len then
      fmtSubslice (segments.take zeroes.start) ++ [':', ':'] ++
        fmtSubslice (segments.drop (zeroes.start + zeroes.len))
    else fmtSubslice segments

/-- `fmt`. -/
def fmt : IpAddr → List Char
  | v4 a b c d => fmtV4 a.val b.val c.val d.val
  | v6 segments => fmtV6 segments.toList

/-- `to_string`. -/
def toText (ip : IpAddr) : String := String.ofList ip.fmt

example : (v6 #v[0x2001, 0xdb8, 0, 0, 1, 0, 0, 1]).toText = "2001:db8::1:0:0:1" := by decide +kernel

/-! ## What such a text is made of -/

/-- A hexadecimal digit, or a separator. -/
def IsPlain (c : Char) : Prop := (∃ d < 16, c = Nat.digitChar d) ∨ c = ':' ∨ c = '.'

theorem exists_digit_of_mem_toDigits {b n : ℕ} (hb : 1 < b) {c : Char} (h : c ∈ Nat.toDigits b n) :
    ∃ d < b, c = Nat.digitChar d := by
  induction n using Nat.strongRecOn with
  | _ n ih =>
    rcases Nat.lt_or_ge n b with hlt | hge
    · rw [Nat.toDigits_of_lt_base hlt] at h
      exact ⟨n, hlt, List.mem_singleton.mp h⟩
    · rw [Nat.toDigits_of_base_le hb hge] at h
      rcases List.mem_append.mp h with hmore | hlast
      · exact ih (n / b) (Nat.div_lt_self (by omega) hb) hmore
      · exact ⟨n % b, Nat.mod_lt n (by omega), List.mem_singleton.mp hlast⟩

theorem plain_hex {n : ℕ} {c : Char} (h : c ∈ hex n) : IsPlain c :=
  Or.inl (exists_digit_of_mem_toDigits (by omega) h)

theorem plain_decimal {n : ℕ} {c : Char} (h : c ∈ decimal n) : IsPlain c := by
  obtain ⟨d, hd, rfl⟩ := exists_digit_of_mem_toDigits (by omega) h
  exact Or.inl ⟨d, by omega, rfl⟩

theorem plain_intercalate {sep : Char} (hsep : IsPlain sep) {parts : List (List Char)}
    (hparts : ∀ part ∈ parts, ∀ c ∈ part, IsPlain c) :
    ∀ c ∈ [sep].intercalate parts, IsPlain c := by
  induction parts with
  | nil => exact nofun
  | cons part parts ih =>
    have hrest := ih fun p hp => hparts p (List.mem_cons_of_mem part hp)
    cases parts with
    | nil =>
      rw [List.intercalate_singleton]
      exact hparts part List.mem_cons_self
    | cons next parts =>
      rw [List.intercalate_cons_cons]
      intro c hc
      rcases List.mem_append.mp hc with hc | hc
      · rcases List.mem_append.mp hc with hc | hc
        · exact hparts part List.mem_cons_self c hc
        · exact List.mem_singleton.mp hc ▸ hsep
      · exact hrest c hc

theorem plain_colon : IsPlain ':' := Or.inr (Or.inl rfl)

theorem plain_fmtSubslice (chunk : List (Fin 65536)) : ∀ c ∈ fmtSubslice chunk, IsPlain c := by
  refine plain_intercalate plain_colon fun part hpart c hc => ?_
  obtain ⟨segment, -, rfl⟩ := List.mem_map.mp hpart
  exact plain_hex hc

theorem plain_fmtV4 (a b c d : ℕ) : ∀ x ∈ fmtV4 a b c d, IsPlain x := by
  refine plain_intercalate (Or.inr (Or.inr rfl)) fun part hpart x hx => ?_
  have hdecimal : ∃ n, part = decimal n := by
    simp only [List.mem_cons, List.not_mem_nil, or_false] at hpart
    rcases hpart with h | h | h | h <;> exact ⟨_, h⟩
  obtain ⟨n, rfl⟩ := hdecimal
  exact plain_decimal hx

theorem plain_toIpv4Mapped {segments : List (Fin 65536)} {ipv4 : List Char}
    (h : toIpv4Mapped segments = some ipv4) : ∀ c ∈ ipv4, IsPlain c := by
  unfold toIpv4Mapped at h
  split at h
  · obtain rfl := Option.some.inj h
    exact plain_fmtV4 _ _ _ _
  · exact nomatch h

theorem plain_fmtV6 (segments : List (Fin 65536)) : ∀ c ∈ fmtV6 segments, IsPlain c := by
  intro c hc
  unfold fmtV6 at hc
  split at hc
  · rename_i ipv4 hmapped
    simp only [List.mem_append, List.mem_cons, List.not_mem_nil, or_false] at hc
    rcases hc with ((hc | hc) | hc) | hc
    · rcases hc with rfl | rfl <;> exact plain_colon
    · exact plain_hex hc
    · exact hc ▸ plain_colon
    · exact plain_toIpv4Mapped hmapped c hc
  · dsimp only at hc
    split at hc
    · simp only [List.mem_append, List.mem_cons, List.not_mem_nil, or_false] at hc
      rcases hc with (hc | hc) | hc
      · exact plain_fmtSubslice _ c hc
      · rcases hc with rfl | rfl <;> exact plain_colon
      · exact plain_fmtSubslice _ c hc
    · exact plain_fmtSubslice _ c hc

/-- Digits and separators. -/
theorem plain_fmt (ip : IpAddr) : ∀ c ∈ ip.fmt, IsPlain c := by
  cases ip with
  | v4 a b c d => exact plain_fmtV4 _ _ _ _
  | v6 segments => exact plain_fmtV6 _

theorem intercalate_ne_nil {sep : List Char} {part : List Char} (hpart : part ≠ [])
    (parts : List (List Char)) : sep.intercalate (part :: parts) ≠ [] := by
  cases parts with
  | nil => rwa [List.intercalate_singleton]
  | cons next parts =>
    rw [List.intercalate_cons_cons, List.append_assoc]
    exact List.append_ne_nil_of_left_ne_nil hpart _

theorem fmtV6_ne_nil {segments : List (Fin 65536)} (h : segments ≠ []) : fmtV6 segments ≠ [] := by
  obtain ⟨segment, rest, rfl⟩ := List.exists_cons_of_ne_nil h
  unfold fmtV6
  split
  · exact List.cons_ne_nil _ _
  · dsimp only
    split
    · exact List.append_ne_nil_of_left_ne_nil
        (List.append_ne_nil_of_right_ne_nil _ (List.cons_ne_nil _ _)) _
    · exact intercalate_ne_nil Nat.toDigits_ne_nil _

theorem fmt_ne_nil (ip : IpAddr) : ip.fmt ≠ [] := by
  cases ip with
  | v4 a b c d => exact intercalate_ne_nil Nat.toDigits_ne_nil _
  | v6 segments =>
    refine fmtV6_ne_nil fun h => ?_
    have hlength := congrArg List.length h
    rw [Vector.length_toList] at hlength
    exact absurd hlength (by decide)

end IpAddr
