import Mathlib.Data.List.Flatten
import Mathlib.Tactic.NormNum
import CodeRunner.Lib.Block

/-! # Relay frames and artifact records

The two ends of a job's relay connection agree on frames of one type byte, a 32-bit
big-endian length and a payload. Between the session and the agent, artifacts travel as
records of a length-prefixed name and length-prefixed data.
-/

namespace CodeRunner.Relay

structure Frame where
  ftype : UInt8
  payload : List UInt8
  deriving DecidableEq, Repr

def tStdin : UInt8 := 0x02
def tStdinClose : UInt8 := 0x03
def tKill : UInt8 := 0x04
def tStdout : UInt8 := 0x11
def tStderr : UInt8 := 0x12
def tCpu : UInt8 := 0x13
def tExit : UInt8 := 0x14
def tArtifact : UInt8 := 0x15

/-- 16 MiB, on both sides. -/
def maxFramePayload : ℕ := 16 * 1024 * 1024

/-- The bytes that `send_frame` passes to `sendall`. -/
def Frame.bytes (f : Frame) : List UInt8 := f.ftype :: Block.put f.payload

/-- What `frameDecoder.next` finds at the front of a stream. -/
inductive Decoded where
  | frame (f : Frame) (rest : List UInt8)
  | short
  | tooLarge (length : ℕ)
  deriving DecidableEq, Repr

def frameDecoderNext : List UInt8 → Decoded
  | t :: b₀ :: b₁ :: b₂ :: b₃ :: bs =>
    let length := Block.ofBe32 b₀ b₁ b₂ b₃
    if maxFramePayload < length then .tooLarge length
    else if bs.length < length then .short
    else .frame ⟨t, bs.take length⟩ (bs.drop length)
  | _ => .short

theorem frameDecoderNext_frame {bs rest : List UInt8} {f : Frame} :
    frameDecoderNext bs = .frame f rest ↔ ∃ t tl, bs = t :: tl ∧ f.ftype = t ∧
      Block.get tl = some (f.payload, rest) ∧ f.payload.length ≤ maxFramePayload := by
  obtain ⟨ftype, payload⟩ := f
  constructor
  · intro h
    unfold frameDecoderNext at h
    split at h
    · next t b₀ b₁ b₂ b₃ tl =>
      dsimp only at h
      split at h
      · cases h
      · next hmax =>
        split at h
        · cases h
        · next hlen =>
          simp only [Decoded.frame.injEq, Frame.mk.injEq] at h
          obtain ⟨⟨rfl, rfl⟩, rfl⟩ := h
          refine ⟨t, _, rfl, rfl, ?_, ?_⟩
          · simp [Block.get, hlen]
          · rw [List.length_take]; omega
    · cases h
  · rintro ⟨t, tl, rfl, rfl, hget, hmax⟩
    obtain ⟨b₀, b₁, b₂, b₃, tl, rfl, hlen, rfl, rfl⟩ := Block.get_eq_some.mp hget
    have hle : Block.ofBe32 b₀ b₁ b₂ b₃ ≤ maxFramePayload := by
      rw [List.length_take] at hmax; omega
    simp [frameDecoderNext, Nat.not_lt.mpr hle, Nat.not_lt.mpr hlen]

def frameDecoder : Incremental.Parser UInt8 Frame where
  next bs :=
    match frameDecoderNext bs with
    | .frame f rest => some (f, rest)
    | _ => none
  shorter := by
    intro bs f rest h
    split at h <;> cases h
    next hf =>
      obtain ⟨t, tl, rfl, -, hget, -⟩ := frameDecoderNext_frame.mp hf
      exact Nat.lt_succ_of_lt (Block.get_shorter hget)
  stable := by
    intro bs f rest more h
    split at h <;> cases h
    next hf =>
      obtain ⟨t, tl, rfl, ht, hget, hmax⟩ := frameDecoderNext_frame.mp hf
      have hmore := frameDecoderNext_frame.mpr
        ⟨t, tl ++ more, rfl, ht, Block.get_stable more hget, hmax⟩
      rw [List.cons_append, hmore]

/-- The agent's `FrameReader`, which has no length limit. -/
def frameReader : Incremental.Parser UInt8 Frame where
  next
    | t :: bs => (Block.get bs).map fun r => (⟨t, r.1⟩, r.2)
    | [] => none
  shorter := by
    rintro (_ | ⟨t, bs⟩) f rest h
    · cases h
    · obtain ⟨⟨data, rest⟩, hget, heq⟩ := Option.map_eq_some_iff.mp h
      simp only [Prod.mk.injEq] at heq
      exact heq.2 ▸ Nat.lt_succ_of_lt (Block.get_shorter hget)
  stable := by
    rintro (_ | ⟨t, bs⟩) f rest more h
    · cases h
    · obtain ⟨⟨data, rest⟩, hget, heq⟩ := Option.map_eq_some_iff.mp h
      simp only [Prod.mk.injEq] at heq
      obtain ⟨rfl, rfl⟩ := heq
      simp [Block.get_stable more hget]

theorem frameDecoder_next (bs : List UInt8) :
    frameDecoder.next bs =
      match frameDecoderNext bs with
      | .frame f rest => some (f, rest)
      | _ => none := rfl

theorem Frame.bytes_append {f : Frame} (rest : List UInt8) :
    f.bytes ++ rest = f.ftype :: (Block.put f.payload ++ rest) := rfl

/-- What the worker decodes of a frame that `send_frame` wrote, given its length limit. -/
theorem frameDecoder_bytes {f : Frame} (hf : f.payload.length ≤ maxFramePayload)
    (rest : List UInt8) : frameDecoder.next (f.bytes ++ rest) = some (f, rest) := by
  have hmax : maxFramePayload < 4294967296 := by norm_num [maxFramePayload]
  have hlt : f.payload.length < 4294967296 := lt_of_le_of_lt hf hmax
  have hget : Block.get (Block.put f.payload ++ rest) = some (f.payload, rest) := Block.get_put hlt
  have hnext := frameDecoderNext_frame.mpr ⟨f.ftype, _, rfl, rfl, hget, hf⟩
  rw [Frame.bytes_append, frameDecoder_next, hnext]

structure Artifact where
  name : String
  data : List UInt8
  deriving DecidableEq, Repr

/-- Of a UTF-8 lead byte, how many continuation bytes follow and the range of the first. -/
def utf8Lead (b : UInt8) : Option (ℕ × UInt8 × UInt8) :=
  if b < 0x80 then some (0, 0, 0)
  else if b < 0xC2 then none
  else if b < 0xE0 then some (1, 0x80, 0xBF)
  else if b < 0xF0 then some (2, if b = 0xE0 then 0xA0 else 0x80, if b = 0xED then 0x9F else 0xBF)
  else if b < 0xF5 then some (3, if b = 0xF0 then 0x90 else 0x80, if b = 0xF4 then 0x8F else 0xBF)
  else none

/-- The continuation bytes that do follow, at most `n`, the first between `lo` and `hi`. -/
def utf8Conts : ℕ → UInt8 → UInt8 → List UInt8 → List UInt8
  | n + 1, lo, hi, b :: bs => if lo ≤ b ∧ b ≤ hi then b :: utf8Conts n 0x80 0xBF bs else []
  | _, _, _, _ => []

def utf8Char (b : UInt8) (conts : List UInt8) : Char :=
  let high :=
    match conts.length with
    | 0 => b.toNat
    | 1 => b.toNat % 0x20
    | 2 => b.toNat % 0x10
    | _ => b.toNat % 0x08
  .ofNat (conts.foldl (fun acc c => acc * 0x40 + c.toNat % 0x40) high)

/-- `bytes.decode("utf-8", "replace")`: each maximal ill-formed prefix becomes one U+FFFD. -/
def decodeReplace (bs : List UInt8) : String := .ofList (go bs.length bs)
where
  go : ℕ → List UInt8 → List Char
    | n + 1, b :: bs =>
      match utf8Lead b with
      | none => '\uFFFD' :: go n bs
      | some (k, lo, hi) =>
        let conts := utf8Conts k lo hi bs
        (if conts.length = k then utf8Char b conts else '\uFFFD') :: go n (bs.drop conts.length)
    | _, _ => []

/-- `str.encode()`. -/
def encodeName (name : String) : List UInt8 := name.toList.flatMap String.utf8EncodeChar

/-- `ArtifactReader`. -/
def artifactReader : Incremental.Parser UInt8 Artifact where
  next bs := (Block.get bs).bind fun name =>
    (Block.get name.2).map fun data => (⟨decodeReplace name.1, data.1⟩, data.2)
  shorter := by
    intro bs x rest h
    obtain ⟨⟨name, bs₁⟩, hname, h⟩ := Option.bind_eq_some_iff.mp h
    obtain ⟨⟨data, bs₂⟩, hdata, heq⟩ := Option.map_eq_some_iff.mp h
    simp only [Prod.mk.injEq] at heq
    exact heq.2 ▸ Nat.lt_trans (Block.get_shorter hdata) (Block.get_shorter hname)
  stable := by
    intro bs x rest more h
    obtain ⟨⟨name, bs₁⟩, hname, h⟩ := Option.bind_eq_some_iff.mp h
    obtain ⟨⟨data, bs₂⟩, hdata, heq⟩ := Option.map_eq_some_iff.mp h
    simp only [Prod.mk.injEq] at heq
    obtain ⟨rfl, rfl⟩ := heq
    simp [Block.get_stable more hname, Block.get_stable more hdata]

def artifactPayload (a : Artifact) : List UInt8 := Block.put (encodeName a.name) ++ a.data

def jsonBytes (s : String) : List UInt8 := s.toList.map fun c => UInt8.ofNat c.toNat

/-- What a cgroup file or `/proc/<pid>/stat` says about CPU time, in 64-bit counters. -/
inductive CpuReading where
  | usageUsec (n : UInt64)
  | cpuacctUsage (n : UInt64)
  | stat (utime stime : UInt64)
  deriving DecidableEq, Repr

/-- Kernel clock ticks for each second, as `sysconf` gives them. -/
def clkTck : ℕ := 100

/-- `cgroup_cpu_ms` and `proc_cpu_ms`. -/
def CpuReading.ms : CpuReading → ℕ
  | .usageUsec n => n.toNat / 1000
  | .cpuacctUsage n => n.toNat / 1000000
  | .stat utime stime => (utime.toNat + stime.toNat) * 1000 / clkTck

theorem CpuReading.ms_lt (r : CpuReading) : r.ms < 10 ^ 21 := by
  cases r with
  | usageUsec n => have := n.toNat_lt; simp only [ms]; omega
  | cpuacctUsage n => have := n.toNat_lt; simp only [ms]; omega
  | stat utime stime =>
    have := utime.toNat_lt
    have := stime.toNat_lt
    simp only [ms, clkTck]; omega

def cpuFrame (r : CpuReading) : Frame :=
  ⟨tCpu, jsonBytes ("\x7b\"cpuMs\": " ++ r.ms.repr ++ "\x7d")⟩

structure ExitStatus where
  exitCode : Option UInt8
  signal : Option UInt8
  deriving DecidableEq, Repr

def jsonNumber : Option UInt8 → String
  | none => "null"
  | some n => n.toNat.repr

def jsonBool : Bool → String
  | false => "false"
  | true => "true"

def exitFrame (r : ExitStatus) (artifactsTruncated : Bool) : Frame :=
  ⟨tExit, jsonBytes ("\x7b\"exitCode\": " ++ jsonNumber r.exitCode ++ ", \"signal\": " ++
    jsonNumber r.signal ++ ", \"artifactsTruncated\": " ++ jsonBool artifactsTruncated ++ "\x7d")⟩

theorem cpuFrame_length (r : CpuReading) : (cpuFrame r).payload.length ≤ maxFramePayload := by
  have hlen : r.ms.repr.length ≤ 21 := (Nat.length_repr_le_iff (by decide)).mpr r.ms_lt
  have hkey : "\x7b\"cpuMs\": ".length = 10 := by decide
  have hclose : "\x7d".length = 1 := by decide
  simp only [cpuFrame, jsonBytes, List.length_map, String.toList_append, List.length_append,
    String.length_toList, hkey, hclose]
  norm_num [maxFramePayload]
  omega

theorem jsonNumber_length (n : Option UInt8) : (jsonNumber n).length ≤ 4 := by
  cases n with
  | none => decide
  | some n =>
    have hn : n.toNat < 10 ^ 4 := lt_trans n.toNat_lt (by norm_num)
    exact (Nat.length_repr_le_iff (by decide)).mpr hn

theorem exitFrame_length (r : ExitStatus) (truncated : Bool) :
    (exitFrame r truncated).payload.length ≤ maxFramePayload := by
  have hnum := jsonNumber_length r.exitCode
  have hsig := jsonNumber_length r.signal
  have hbool : (jsonBool truncated).length ≤ 5 := by cases truncated <;> decide
  have hcode : "\x7b\"exitCode\": ".length = 13 := by decide
  have hsignal : ", \"signal\": ".length = 12 := by decide
  have htruncated : ", \"artifactsTruncated\": ".length = 24 := by decide
  have hclose : "\x7d".length = 1 := by decide
  simp only [exitFrame, jsonBytes, List.length_map, String.toList_append, List.length_append,
    String.length_toList, hcode, hsignal, htruncated, hclose]
  norm_num [maxFramePayload]
  omega

end CodeRunner.Relay
