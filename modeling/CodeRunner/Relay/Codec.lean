import CodeRunner.Lib.Reads
import CodeRunner.Relay.Stdin

/-! # The relay codec

Each side of the relay writes frames for the other side's reader. However the stream is cut
into reads, a reader decodes the frames that were written, and of a stream that ends inside a
frame the frames before it. An artifact keeps its name and its data through both of its
encodings.
-/

namespace CodeRunner.Relay

open Incremental

theorem utf8Conts_zero {lo hi : UInt8} {bs : List UInt8} : utf8Conts 0 lo hi bs = [] := by
  cases bs <;> rfl

theorem utf8Conts_append {lo hi b : UInt8} {conts rest : List UInt8} (h : lo ≤ b ∧ b ≤ hi)
    (hs : ∀ x ∈ conts, 0x80 ≤ x ∧ x ≤ 0xBF) :
    utf8Conts (b :: conts).length lo hi (b :: conts ++ rest) = b :: conts := by
  induction conts generalizing lo hi b with
  | nil =>
    rw [List.length_singleton, List.cons_append, utf8Conts, if_pos h, utf8Conts_zero]
  | cons x conts ih =>
    have hx := hs x List.mem_cons_self
    have htl := ih hx fun y hy => hs y (List.mem_cons_of_mem x hy)
    rw [List.length_cons, List.cons_append, utf8Conts, if_pos h, htl]

structure Encodes (c : Char) (b : UInt8) (conts : List UInt8) : Prop where
  conts_of : ∃ lo hi, utf8Lead b = some (conts.length, lo, hi) ∧
    ∀ rest, utf8Conts conts.length lo hi (conts ++ rest) = conts
  char : utf8Char b conts = c

theorem toNat_cont (v : ℕ) : (UInt8.ofNat (v % 0x40 + 0x80)).toNat = v % 0x40 + 0x80 := by
  rw [UInt8.toNat_ofNat']
  omega

theorem cont_bounds (v : ℕ) :
    (0x80 : UInt8) ≤ UInt8.ofNat (v % 0x40 + 0x80) ∧ UInt8.ofNat (v % 0x40 + 0x80) ≤ 0xBF := by
  rw [UInt8.le_iff_toNat_le, UInt8.le_iff_toNat_le, toNat_cont]
  constructor
  · change 0x80 ≤ _; omega
  · change _ ≤ 0xBF; omega

theorem toNat_mod_cont (v : ℕ) : (UInt8.ofNat (v % 0x40 + 0x80)).toNat % 0x40 = v % 0x40 := by
  rw [toNat_cont]
  omega

theorem not_lt_of_toNat {b n : UInt8} (h : n.toNat ≤ b.toNat) : ¬ b < n := by
  intro hlt
  exact absurd (UInt8.lt_iff_toNat_lt.mp hlt) (Nat.not_lt.mpr h)

theorem utf8Lead_two {b : UInt8} (h : 0xC2 ≤ b.toNat) (h' : b.toNat < 0xE0) :
    utf8Lead b = some (1, 0x80, 0xBF) := by
  have h0 : ¬ b < 0x80 := not_lt_of_toNat (Nat.le_trans (by decide) h)
  have h1 : ¬ b < 0xC2 := not_lt_of_toNat h
  rw [utf8Lead, if_neg h0, if_neg h1, if_pos (UInt8.lt_iff_toNat_lt.mpr h')]

theorem utf8Lead_three {b : UInt8} (h : 0xE0 ≤ b.toNat) (h' : b.toNat < 0xF0) :
    utf8Lead b = some (2, if b = 0xE0 then 0xA0 else 0x80, if b = 0xED then 0x9F else 0xBF) := by
  have h0 : ¬ b < 0x80 := not_lt_of_toNat (Nat.le_trans (by decide) h)
  have h1 : ¬ b < 0xC2 := not_lt_of_toNat (Nat.le_trans (by decide) h)
  have h2 : ¬ b < 0xE0 := not_lt_of_toNat h
  rw [utf8Lead, if_neg h0, if_neg h1, if_neg h2, if_pos (UInt8.lt_iff_toNat_lt.mpr h')]

theorem utf8Lead_four {b : UInt8} (h : 0xF0 ≤ b.toNat) (h' : b.toNat < 0xF5) :
    utf8Lead b = some (3, if b = 0xF0 then 0x90 else 0x80, if b = 0xF4 then 0x8F else 0xBF) := by
  have h0 : ¬ b < 0x80 := not_lt_of_toNat (Nat.le_trans (by decide) h)
  have h1 : ¬ b < 0xC2 := not_lt_of_toNat (Nat.le_trans (by decide) h)
  have h2 : ¬ b < 0xE0 := not_lt_of_toNat (Nat.le_trans (by decide) h)
  have h3 : ¬ b < 0xF0 := not_lt_of_toNat h
  rw [utf8Lead, if_neg h0, if_neg h1, if_neg h2, if_neg h3,
    if_pos (UInt8.lt_iff_toNat_lt.mpr h')]

theorem ofNat_le_cont {n : UInt8} {v : ℕ} (h : n.toNat ≤ v % 0x40 + 0x80) :
    n ≤ UInt8.ofNat (v % 0x40 + 0x80) := by
  rwa [UInt8.le_iff_toNat_le, toNat_cont]

theorem cont_le_ofNat {n : UInt8} {v : ℕ} (h : v % 0x40 + 0x80 ≤ n.toNat) :
    UInt8.ofNat (v % 0x40 + 0x80) ≤ n := by
  rwa [UInt8.le_iff_toNat_le, toNat_cont]

theorem encodes_one {v : ℕ} (h : v < 0x80) : Encodes (Char.ofNat v) (.ofNat v) [] := by
  have hb : (UInt8.ofNat v).toNat = v := by rw [UInt8.toNat_ofNat']; omega
  constructor
  · refine ⟨0, 0, ?_, fun rest => utf8Conts_zero⟩
    rw [utf8Lead, if_pos (UInt8.lt_iff_toNat_lt.mpr (by rw [hb]; exact h))]
    rfl
  · rw [utf8Char, List.foldl_nil]
    change Char.ofNat (UInt8.ofNat v).toNat = Char.ofNat v
    rw [hb]

theorem encodes_two {v : ℕ} (h : 0x80 ≤ v) (h' : v < 0x800) :
    Encodes (Char.ofNat v) (.ofNat (v / 64 % 0x20 + 0xc0)) [.ofNat (v % 0x40 + 0x80)] := by
  have hb : (UInt8.ofNat (v / 64 % 0x20 + 0xc0)).toNat = v / 64 % 0x20 + 0xc0 := by
    rw [UInt8.toNat_ofNat']; omega
  constructor
  · refine ⟨_, _, utf8Lead_two (by omega) (by omega), fun rest => ?_⟩
    exact utf8Conts_append (cont_bounds v) nofun
  · simp only [utf8Char, List.length_cons, List.length_nil, List.foldl_cons, List.foldl_nil,
      toNat_mod_cont, hb]
    congr 1
    omega

/-- The range of the first continuation byte excludes overlong forms and surrogates. -/
theorem encodes_three {v : ℕ} (h : 0x800 ≤ v) (h' : v < 0x10000)
    (hvalid : v < 0xd800 ∨ 0xdfff < v) :
    Encodes (Char.ofNat v) (.ofNat (v / 4096 % 0x10 + 0xe0))
      [.ofNat (v / 64 % 0x40 + 0x80), .ofNat (v % 0x40 + 0x80)] := by
  have hb : (UInt8.ofNat (v / 4096 % 0x10 + 0xe0)).toNat = v / 4096 % 0x10 + 0xe0 := by
    rw [UInt8.toNat_ofNat']; omega
  constructor
  · refine ⟨_, _, utf8Lead_three (by omega) (by omega), fun rest => ?_⟩
    refine utf8Conts_append ⟨?_, ?_⟩ (List.forall_mem_singleton.mpr (cont_bounds v))
    · apply ofNat_le_cont
      split
      · next he => rw [he] at hb; change 224 = _ at hb; change 160 ≤ _; omega
      · change 128 ≤ _; omega
    · apply cont_le_ofNat
      split
      · next he => rw [he] at hb; change 237 = _ at hb; change _ ≤ 159; omega
      · change _ ≤ 191; omega
  · simp only [utf8Char, List.length_cons, List.length_nil, List.foldl_cons, List.foldl_nil,
      toNat_mod_cont, hb]
    congr 1
    omega

theorem encodes_four {v : ℕ} (h : 0x10000 ≤ v) (h' : v < 0x110000) :
    Encodes (Char.ofNat v) (.ofNat (v / 262144 % 0x08 + 0xf0))
      [.ofNat (v / 4096 % 0x40 + 0x80), .ofNat (v / 64 % 0x40 + 0x80),
        .ofNat (v % 0x40 + 0x80)] := by
  have hb : (UInt8.ofNat (v / 262144 % 0x08 + 0xf0)).toNat = v / 262144 % 0x08 + 0xf0 := by
    rw [UInt8.toNat_ofNat']; omega
  constructor
  · refine ⟨_, _, utf8Lead_four (by omega) (by omega), fun rest => ?_⟩
    refine utf8Conts_append ⟨?_, ?_⟩ (List.forall_mem_cons.mpr
      ⟨cont_bounds (v / 64), List.forall_mem_singleton.mpr (cont_bounds v)⟩)
    · apply ofNat_le_cont
      split
      · next he => rw [he] at hb; change 240 = _ at hb; change 144 ≤ _; omega
      · change 128 ≤ _; omega
    · apply cont_le_ofNat
      split
      · next he => rw [he] at hb; change 244 = _ at hb; change _ ≤ 143; omega
      · change _ ≤ 191; omega
  · simp only [utf8Char, List.length_cons, List.length_nil, List.foldl_cons, List.foldl_nil,
      toNat_mod_cont, hb]
    congr 1
    omega

theorem exists_encodes (c : Char) :
    ∃ b conts, String.utf8EncodeChar c = b :: conts ∧ Encodes c b conts := by
  have hvalid : c.val.toNat < 0xd800 ∨ 0xdfff < c.val.toNat ∧ c.val.toNat < 0x110000 := c.valid
  have hchar : Char.ofNat c.val.toNat = c := c.ofNat_toNat
  unfold String.utf8EncodeChar
  dsimp only
  generalize c.val.toNat = v at hvalid hchar ⊢
  subst hchar
  split
  · exact ⟨_, _, rfl, encodes_one (by omega)⟩
  · split
    · exact ⟨_, _, rfl, encodes_two (by omega) (by omega)⟩
    · split
      · exact ⟨_, _, rfl, encodes_three (by omega) (by omega) (by omega)⟩
      · exact ⟨_, _, rfl, encodes_four (by omega) (by omega)⟩

theorem decodeReplace_go_encodeChar (c : Char) (n : ℕ) (rest : List UInt8) :
    decodeReplace.go (n + 1) (String.utf8EncodeChar c ++ rest) = c :: decodeReplace.go n rest := by
  obtain ⟨b, conts, hc, ⟨lo, hi, hlead, hconts⟩, hchar⟩ := exists_encodes c
  rw [hc, List.cons_append, decodeReplace.go, hlead]
  simp only [hconts rest, if_true, hchar, List.drop_left]

theorem decodeReplace_go_encode {n : ℕ} {cs : List Char}
    (h : (cs.flatMap String.utf8EncodeChar).length ≤ n) :
    decodeReplace.go n (cs.flatMap String.utf8EncodeChar) = cs := by
  induction cs generalizing n with
  | nil => cases n <;> rfl
  | cons c cs ih =>
    have hpos : 0 < (String.utf8EncodeChar c).length := by
      rw [String.length_utf8EncodeChar]
      exact c.utf8Size_pos
    rw [List.flatMap_cons, List.length_append] at h
    cases n with
    | zero => omega
    | succ n => rw [List.flatMap_cons, decodeReplace_go_encodeChar, ih (by omega)]

theorem decodeReplace_encodeName (name : String) : decodeReplace (encodeName name) = name := by
  rw [decodeReplace, encodeName, decodeReplace_go_encode (Nat.le_refl _), String.ofList_toList]

inductive RelayError where
  | eof
  | unexpectedEof
  | errorf (text : String)
  deriving DecidableEq, Repr

def RelayError.ofRead : Reads.Error → RelayError
  | .eof => .eof
  | .unexpectedEof => .unexpectedEof

/-- The writes that `writeFrame` makes, or its error. -/
def writeFrame (f : Frame) : Except RelayError (List (List UInt8)) :=
  if maxFramePayload < f.payload.length then
    .error (.errorf s!"zygote: outbound frame payload too large: {f.payload.length}")
  else
    .ok ((f.ftype :: Block.be32 f.payload.length) ::
      if 0 < f.payload.length then [f.payload] else [])

def writeFrames : List Frame → Except RelayError (List (List UInt8))
  | [] => .ok []
  | f :: fs =>
    match writeFrame f with
    | .error e => .error e
    | .ok writes => (writeFrames fs).map (writes ++ ·)

/-- `frameDecoder.next`, on the reads that the connection still gives. -/
def nextFrame (reads : List (List UInt8)) : Except RelayError (Frame × List (List UInt8)) :=
  match Reads.fill 5 reads with
  | .error e => .error (.ofRead e)
  | .ok ([ftype, b₀, b₁, b₂, b₃], reads) =>
    let length := Block.ofBe32 b₀ b₁ b₂ b₃
    if maxFramePayload < length then
      .error (.errorf
        s!"zygote: inbound frame length {length} exceeds cap {maxFramePayload}")
    else if length = 0 then .ok (⟨ftype, []⟩, reads)
    else
      match Reads.fill length reads with
      -- The stream ends between the header and the payload, or inside the payload.
      | .error _ => .error .unexpectedEof
      | .ok (payload, reads) => .ok (⟨ftype, payload⟩, reads)
  | .ok _ => .error .unexpectedEof

/-- The frames that the reader goroutine takes, and the error that ends it. -/
def readFrames : ℕ → List (List UInt8) → List Frame × Option RelayError
  | 0, _ => ([], none)
  | n + 1, reads =>
    match nextFrame reads with
    | .error e => ([], some e)
    | .ok (f, reads) => (f :: (readFrames n reads).1, (readFrames n reads).2)

/-- How a stream ends for the worker whose front is not a complete frame. -/
def Decoded.error (stream : List UInt8) : Decoded → RelayError
  | .tooLarge length =>
    .errorf s!"zygote: inbound frame length {length} exceeds cap {maxFramePayload}"
  | .short | .frame .. => if stream.isEmpty then .eof else .unexpectedEof

variable {fs : List Frame} {f : Frame} {reads : List (List UInt8)}

theorem nextFrame_of_short (h : reads.flatten.length < 5) :
    nextFrame reads = .error (if reads.flatten.isEmpty then .eof else .unexpectedEof) := by
  rw [nextFrame, Reads.fill_of_lt h]
  dsimp only
  split <;> rfl

theorem exists_header {bs : List UInt8} (h : 5 ≤ bs.length) :
    ∃ t b₀ b₁ b₂ b₃ tl, bs = t :: b₀ :: b₁ :: b₂ :: b₃ :: tl := by
  rcases bs with _ | ⟨t, _ | ⟨b₀, _ | ⟨b₁, _ | ⟨b₂, _ | ⟨b₃, tl⟩⟩⟩⟩⟩
  case cons.cons.cons.cons.cons => exact ⟨t, b₀, b₁, b₂, b₃, tl, rfl⟩
  all_goals simp at h

theorem nextFrame_of_header {t b₀ b₁ b₂ b₃ : UInt8} {bs : List UInt8}
    (h : reads.flatten = t :: b₀ :: b₁ :: b₂ :: b₃ :: bs) :
    ∃ reads', reads'.flatten = bs ∧ nextFrame reads =
      if maxFramePayload < Block.ofBe32 b₀ b₁ b₂ b₃ then
        .error (.errorf
          s!"zygote: inbound frame length {Block.ofBe32 b₀ b₁ b₂ b₃} exceeds cap {maxFramePayload}")
      else if Block.ofBe32 b₀ b₁ b₂ b₃ = 0 then .ok (⟨t, []⟩, reads')
      else
        match Reads.fill (Block.ofBe32 b₀ b₁ b₂ b₃) reads' with
        | .error _ => .error .unexpectedEof
        | .ok (payload, reads) => .ok (⟨t, payload⟩, reads) := by
  have hlen : 5 ≤ reads.flatten.length := by rw [h]; simp
  obtain ⟨reads', hfill, hrest⟩ := Reads.fill_of_le hlen
  refine ⟨reads', by rw [hrest, h]; rfl, ?_⟩
  rw [nextFrame, hfill, h]
  rfl

theorem nextFrame_frame {rest : List UInt8} (h : frameDecoderNext reads.flatten = .frame f rest) :
    ∃ reads', nextFrame reads = .ok (f, reads') ∧ reads'.flatten = rest := by
  obtain ⟨t, tl, hbs, rfl, hget, hmax⟩ := frameDecoderNext_frame.mp h
  obtain ⟨b₀, b₁, b₂, b₃, bs, rfl, hlen, hpayload, rfl⟩ := Block.get_eq_some.mp hget
  obtain ⟨reads', hreads, hnext⟩ := nextFrame_of_header hbs
  have hle : Block.ofBe32 b₀ b₁ b₂ b₃ ≤ maxFramePayload := by
    rwa [hpayload, List.length_take, Nat.min_eq_left hlen] at hmax
  rw [if_neg (Nat.not_lt.mpr hle)] at hnext
  by_cases hzero : Block.ofBe32 b₀ b₁ b₂ b₃ = 0
  · rw [if_pos hzero] at hnext
    have hnil : f.payload = [] := by rw [hpayload, hzero, List.take_zero]
    refine ⟨reads', ?_, by rw [hreads, hzero, List.drop_zero]⟩
    rw [hnext, ← hnil]
  · rw [← hreads] at hlen
    obtain ⟨reads'', hfill, hrest⟩ := Reads.fill_of_le hlen
    rw [if_neg hzero, hfill, hreads] at hnext
    refine ⟨reads'', ?_, by rw [hrest, hreads]⟩
    rw [hnext, ← hpayload]

theorem nextFrame_error (h : ∀ f rest, frameDecoderNext reads.flatten ≠ .frame f rest) :
    nextFrame reads = .error ((frameDecoderNext reads.flatten).error reads.flatten) := by
  by_cases hlen : reads.flatten.length < 5
  · have hshort : frameDecoderNext reads.flatten = .short := by
      unfold frameDecoderNext
      split
      · next heq =>
        rw [heq] at hlen
        simp only [List.length_cons] at hlen
        omega
      · rfl
    rw [nextFrame_of_short hlen, hshort, Decoded.error]
  · obtain ⟨t, b₀, b₁, b₂, b₃, bs, hbs⟩ := exists_header (Nat.le_of_not_lt hlen)
    obtain ⟨reads', hreads, hnext⟩ := nextFrame_of_header hbs
    rw [hbs, frameDecoderNext] at h ⊢
    rw [hnext]
    by_cases hmax : maxFramePayload < Block.ofBe32 b₀ b₁ b₂ b₃
    · rw [if_pos hmax, if_pos hmax, Decoded.error]
    · rw [if_neg hmax] at h ⊢
      rw [if_neg hmax]
      by_cases hlt : bs.length < Block.ofBe32 b₀ b₁ b₂ b₃
      · have hzero : Block.ofBe32 b₀ b₁ b₂ b₃ ≠ 0 := by omega
        rw [← hreads] at hlt
        rw [if_neg hzero, Reads.fill_of_lt hlt]
        rw [hreads] at hlt
        rw [if_pos hlt, Decoded.error]
        rfl
      · rw [if_neg hlt] at h
        exact absurd rfl (h _ _)

theorem readFrames_eq {n : ℕ} (h : reads.flatten.length < n) :
    readFrames n reads = ((frameDecoder.drain reads.flatten).1,
      some ((frameDecoderNext (frameDecoder.drain reads.flatten).2).error
        (frameDecoder.drain reads.flatten).2)) := by
  induction n generalizing reads with
  | zero => cases h
  | succ n ih =>
    cases hdec : frameDecoderNext reads.flatten with
    | frame f rest =>
      obtain ⟨reads', hnext, hrest⟩ := nextFrame_frame hdec
      have hsome : frameDecoder.next reads.flatten = some (f, rest) := by
        rw [frameDecoder_next, hdec]
      have hlt := frameDecoder.shorter hsome
      have hlt' : reads'.flatten.length < n := by
        rw [hrest]
        omega
      have htail := ih hlt'
      rw [readFrames, hnext, Parser.drain_of_some hsome, ← hrest]
      dsimp only
      rw [htail]
    | short =>
      have herr : nextFrame reads = _ := nextFrame_error (by rw [hdec]; nofun)
      have hnone : frameDecoder.next reads.flatten = none := by rw [frameDecoder_next, hdec]
      rw [readFrames, herr, Parser.drain_of_none hnone]
    | tooLarge length =>
      have herr : nextFrame reads = _ := nextFrame_error (by rw [hdec]; nofun)
      have hnone : frameDecoder.next reads.flatten = none := by rw [frameDecoder_next, hdec]
      rw [readFrames, herr, Parser.drain_of_none hnone]

theorem writeFrame_eq (hf : f.payload.length ≤ maxFramePayload) :
    ∃ writes, writeFrame f = .ok writes ∧ writes.flatten = f.bytes := by
  rw [writeFrame, if_neg (Nat.not_lt.mpr hf)]
  refine ⟨_, rfl, ?_⟩
  by_cases hpos : 0 < f.payload.length
  · simp [if_pos hpos, Frame.bytes, Block.put]
  · have hnil : f.payload = [] := List.length_eq_zero_iff.mp (Nat.eq_zero_of_not_pos hpos)
    simp [hnil, Frame.bytes, Block.put]

/-- The worker writes the bytes that `send_frame` would. -/
theorem writeFrames_eq (hfs : ∀ f ∈ fs, f.payload.length ≤ maxFramePayload) :
    ∃ writes, writeFrames fs = .ok writes ∧ writes.flatten = fs.flatMap Frame.bytes := by
  induction fs with
  | nil => exact ⟨[], rfl, rfl⟩
  | cons f fs ih =>
    obtain ⟨ws, hws, hbytes⟩ := writeFrame_eq (hfs f List.mem_cons_self)
    obtain ⟨rest, hrest, hflat⟩ := ih fun g hg => hfs g (List.mem_cons_of_mem f hg)
    refine ⟨ws ++ rest, ?_, ?_⟩
    · rw [writeFrames, hws, hrest]
      rfl
    · rw [List.flatten_append, hbytes, hflat, List.flatMap_cons]

theorem frameReader_feed (hfs : ∀ f ∈ fs, f.payload.length ≤ maxFramePayload)
    (hreads : reads.flatten = fs.flatMap Frame.bytes) : frameReader.feed [] reads = (fs, []) := by
  rw [Parser.feed_eq_drain rfl, List.nil_append, hreads, frameReader_drain hfs]

theorem frameDecoder_drain (hfs : ∀ f ∈ fs, f.payload.length ≤ maxFramePayload)
    (rest : List UInt8) :
    frameDecoder.drain (fs.flatMap Frame.bytes ++ rest) =
      (fs ++ (frameDecoder.drain rest).1, (frameDecoder.drain rest).2) :=
  Parser.drain_flatMap Frame.bytes (fun f hf rest => frameDecoder_bytes (hfs f hf) rest) rest

theorem readFrames_bytes {n : ℕ} (hfs : ∀ f ∈ fs, f.payload.length ≤ maxFramePayload)
    (hreads : reads.flatten = fs.flatMap Frame.bytes) (hn : reads.flatten.length < n) :
    readFrames n reads = (fs, some .eof) := by
  have hdrain := frameDecoder_drain hfs []
  have hnil : frameDecoder.drain [] = ([], []) := Parser.drain_of_none rfl
  rw [hnil, List.append_nil, List.append_nil] at hdrain
  rw [readFrames_eq hn, hreads, hdrain]
  rfl

variable {cut more : List UInt8}

theorem frameReader_feed_cut (hfs : ∀ f ∈ fs, f.payload.length ≤ maxFramePayload)
    (hf : f.payload.length ≤ maxFramePayload) (hcut : f.bytes = cut ++ more) (hmore : more ≠ [])
    (hreads : reads.flatten = fs.flatMap Frame.bytes ++ cut) :
    frameReader.feed [] reads = (fs, cut) := by
  have hwhole := frameReader_bytes hf []
  rw [List.append_nil, hcut] at hwhole
  have hnone := Parser.next_of_cut hwhole hmore
  rw [Parser.feed_eq_drain rfl, List.nil_append, hreads,
    Parser.drain_flatMap Frame.bytes (fun f hf rest => frameReader_bytes (hfs f hf) rest),
    Parser.drain_of_none hnone, List.append_nil]

theorem frameDecoderNext_cut (hf : f.payload.length ≤ maxFramePayload)
    (hcut : f.bytes = cut ++ more) (hmore : more ≠ []) : frameDecoderNext cut = .short := by
  have hwhole := frameDecoder_bytes hf []
  rw [List.append_nil, hcut] at hwhole
  have hnone := Parser.next_of_cut hwhole hmore
  cases hdec : frameDecoderNext cut with
  | short => rfl
  | frame g rest =>
    rw [frameDecoder_next, hdec] at hnone
    cases hnone
  | tooLarge length =>
    have hlarge : frameDecoderNext (cut ++ more) = .tooLarge length := by
      unfold frameDecoderNext at hdec
      split at hdec
      · next t b₀ b₁ b₂ b₃ tl =>
        dsimp only at hdec
        split at hdec
        · next hmax => rwa [List.cons_append, List.cons_append, List.cons_append,
            List.cons_append, List.cons_append, frameDecoderNext, if_pos hmax]
        · split at hdec <;> cases hdec
      · cases hdec
    rw [frameDecoder_next, hlarge] at hwhole
    cases hwhole

theorem readFrames_cut {n : ℕ} (hfs : ∀ f ∈ fs, f.payload.length ≤ maxFramePayload)
    (hf : f.payload.length ≤ maxFramePayload) (hcut : f.bytes = cut ++ more) (hmore : more ≠ [])
    (hne : cut ≠ []) (hreads : reads.flatten = fs.flatMap Frame.bytes ++ cut)
    (hn : reads.flatten.length < n) : readFrames n reads = (fs, some .unexpectedEof) := by
  have hshort := frameDecoderNext_cut hf hcut hmore
  have hnone : frameDecoder.next cut = none := by rw [frameDecoder_next, hshort]
  rw [readFrames_eq hn, hreads, frameDecoder_drain hfs, Parser.drain_of_none hnone, hshort,
    List.append_nil, Decoded.error, if_neg (by simpa using hne)]

/-- What `_capture_artifacts` writes of a file. -/
def captureRecord (a : Artifact) : List UInt8 := Block.put (encodeName a.name) ++ Block.put a.data

/-- The frame of an artifact. -/
def Artifact.frame (a : Artifact) : Frame := ⟨tArtifact, artifactPayload a⟩

/-- The frames that `_send_artifacts` sends on a connection that takes them, and whether it
dropped an artifact. -/
def sendArtifacts : List Artifact → List Frame × Bool
  | [] => ([], false)
  | a :: artifacts =>
    if maxFramePayload < 4 + (encodeName a.name).length + a.data.length then
      ((sendArtifacts artifacts).1, true)
    else (a.frame :: (sendArtifacts artifacts).1, (sendArtifacts artifacts).2)

structure CapturedArtifact where
  name : List UInt8
  mimeType : String
  data : List UInt8
  deriving DecidableEq, Repr

def decodeArtifactFrame (payload : List UInt8) : Except RelayError CapturedArtifact :=
  match payload with
  | b₀ :: b₁ :: b₂ :: b₃ :: bs =>
    let nameLen := Block.ofBe32 b₀ b₁ b₂ b₃
    if bs.length < nameLen then
      .error (.errorf s!"zygote: artifact name length {nameLen} exceeds payload {bs.length}")
    else .ok ⟨bs.take nameLen, "", bs.drop nameLen⟩
  | _ => .error (.errorf s!"zygote: artifact frame too short: {payload.length} bytes")

def Artifact.captured (a : Artifact) : CapturedArtifact := ⟨encodeName a.name, "", a.data⟩

/-- The artifact's frame is within the payload limit. -/
def Artifact.Fits (a : Artifact) : Prop :=
  4 + (encodeName a.name).length + a.data.length ≤ maxFramePayload

instance : DecidablePred Artifact.Fits := fun _ => inferInstanceAs (Decidable (_ ≤ _))

def Artifact.Packs (a : Artifact) : Prop :=
  (encodeName a.name).length < 4294967296 ∧ a.data.length < 4294967296

variable {a : Artifact} {as : List Artifact}

theorem Artifact.Fits.packs (ha : a.Fits) : a.Packs := by
  have hmax : maxFramePayload < 4294967296 := by norm_num [maxFramePayload]
  unfold Artifact.Fits at ha
  unfold Artifact.Packs
  omega

theorem artifactReader_record (ha : a.Packs) (rest : List UInt8) :
    artifactReader.next (captureRecord a ++ rest) = some (a, rest) := by
  obtain ⟨hn, hd⟩ := ha
  have hname : Block.get (captureRecord a ++ rest) =
      some (encodeName a.name, Block.put a.data ++ rest) := by
    rw [captureRecord, List.append_assoc]
    exact Block.get_put hn
  have hdata : Block.get (Block.put a.data ++ rest) = some (a.data, rest) := Block.get_put hd
  change (Block.get (captureRecord a ++ rest)).bind _ = _
  rw [hname, Option.bind_some, hdata, Option.map_some, decodeReplace_encodeName]

theorem artifactReader_feed (has : ∀ a ∈ as, a.Packs)
    (hreads : reads.flatten = as.flatMap captureRecord) :
    artifactReader.feed [] reads = (as, []) := by
  have hdrain := Parser.drain_flatMap (p := artifactReader) captureRecord
    (fun a ha rest => artifactReader_record (has a ha) rest) []
  have hnil : artifactReader.drain [] = ([], []) := Parser.drain_of_none rfl
  rw [List.append_nil, hnil, List.append_nil] at hdrain
  rw [Parser.feed_eq_drain rfl, List.nil_append, hreads, hdrain]

theorem artifactReader_feed_cut (has : ∀ a ∈ as, a.Packs) (ha : a.Packs)
    (hcut : captureRecord a = cut ++ more) (hmore : more ≠ [])
    (hreads : reads.flatten = as.flatMap captureRecord ++ cut) :
    artifactReader.feed [] reads = (as, cut) := by
  have hwhole := artifactReader_record ha []
  rw [List.append_nil, hcut] at hwhole
  have hnone := Parser.next_of_cut hwhole hmore
  rw [Parser.feed_eq_drain rfl, List.nil_append, hreads,
    Parser.drain_flatMap captureRecord (fun a ha rest => artifactReader_record (has a ha) rest),
    Parser.drain_of_none hnone, List.append_nil]

theorem artifactPayload_length (a : Artifact) :
    (artifactPayload a).length = 4 + (encodeName a.name).length + a.data.length := by
  rw [artifactPayload, List.length_append, Block.length_put]

theorem Artifact.Fits.frame_length (ha : a.Fits) : a.frame.payload.length ≤ maxFramePayload := by
  rw [Artifact.frame, artifactPayload_length]
  exact ha

theorem sendArtifacts_eq (has : ∀ a ∈ as, a.Fits) :
    sendArtifacts as = (as.map Artifact.frame, false) := by
  induction as with
  | nil => rfl
  | cons a as ih =>
    have ha : ¬ maxFramePayload < 4 + (encodeName a.name).length + a.data.length :=
      Nat.not_lt.mpr (has a List.mem_cons_self)
    rw [sendArtifacts, if_neg ha, ih fun b hb => has b (List.mem_cons_of_mem a hb)]
    rfl

theorem decodeArtifactFrame_frame (ha : a.Fits) :
    decodeArtifactFrame a.frame.payload = .ok a.captured := by
  change decodeArtifactFrame (artifactPayload a) = _
  have hlen := Block.ofBe32_be32 ha.packs.1
  simp [decodeArtifactFrame, artifactPayload, Block.put, Block.be32, hlen, Artifact.captured]

/-- Both directions of frames, the way of an artifact through its two encodings, and what is read
of a stream that ends inside a frame or a record, for every cut into reads. -/
theorem relay_round_trip (hfs : ∀ f ∈ fs, f.payload.length ≤ maxFramePayload)
    (has : ∀ a ∈ as, a.Fits) :
    (∃ writes, writeFrames fs = .ok writes ∧ writes.flatten = fs.flatMap Frame.bytes ∧
      ∀ reads, reads.flatten = writes.flatten → frameReader.feed [] reads = (fs, [])) ∧
    (∀ reads n, reads.flatten = fs.flatMap Frame.bytes → reads.flatten.length < n →
      readFrames n reads = (fs, some .eof)) ∧
    (∀ reads, reads.flatten = as.flatMap captureRecord →
      ∃ sent, sendArtifacts (artifactReader.feed [] reads).1 = (sent, false) ∧
        (∀ reads n, reads.flatten = sent.flatMap Frame.bytes → reads.flatten.length < n →
          readFrames n reads = (sent, some .eof)) ∧
        sent.map (fun f => decodeArtifactFrame f.payload) = as.map fun a => .ok a.captured) ∧
    (∀ (f : Frame) cut more, f.payload.length ≤ maxFramePayload → f.bytes = cut ++ more →
      cut ≠ [] → more ≠ [] → ∀ reads, reads.flatten = fs.flatMap Frame.bytes ++ cut →
        frameReader.feed [] reads = (fs, cut) ∧
        ∀ n, reads.flatten.length < n → readFrames n reads = (fs, some .unexpectedEof)) ∧
    ∀ (a : Artifact) cut more, a.Fits → captureRecord a = cut ++ more → more ≠ [] →
      ∀ reads, reads.flatten = as.flatMap captureRecord ++ cut →
        artifactReader.feed [] reads = (as, cut) := by
  refine ⟨?_, fun reads n => readFrames_bytes hfs, ?_, ?_, ?_⟩
  · obtain ⟨writes, hwrites, hbytes⟩ := writeFrames_eq hfs
    exact ⟨writes, hwrites, hbytes, fun reads hreads => frameReader_feed hfs (hreads.trans hbytes)⟩
  · intro reads hreads
    have hlen : ∀ f ∈ as.map Artifact.frame, f.payload.length ≤ maxFramePayload := by
      intro f hf
      obtain ⟨a, ha, rfl⟩ := List.mem_map.mp hf
      exact (has a ha).frame_length
    refine ⟨as.map Artifact.frame, ?_, fun reads n => readFrames_bytes hlen, ?_⟩
    · rw [artifactReader_feed (fun a ha => (has a ha).packs) hreads, sendArtifacts_eq has]
    · rw [List.map_map, List.map_congr_left]
      intro a ha
      rw [Function.comp_apply, decodeArtifactFrame_frame (has a ha)]
  · intro f cut more hf hcut hne hmore reads hreads
    exact ⟨frameReader_feed_cut hfs hf hcut hmore hreads,
      fun n => readFrames_cut hfs hf hcut hmore hne hreads⟩
  · intro a cut more ha hcut hmore reads hreads
    exact artifactReader_feed_cut (fun a ha => (has a ha).packs) ha.packs hcut hmore hreads

/-- A payload of one byte and an empty one, in reads that cut both headers. -/
theorem relay_round_trip_stdin :
    frameReader.feed [] [[0x02, 0], [0, 0], [], [1, 0x61, 0x03], [0, 0, 0, 0]] =
      ([⟨tStdin, [0x61]⟩, ⟨tStdinClose, []⟩], []) ∧
    readFrames 12 [[0x02, 0], [0, 0], [], [1, 0x61, 0x03], [0, 0, 0, 0]] =
      ([⟨tStdin, [0x61]⟩, ⟨tStdinClose, []⟩], some .eof) := by
  have hfs : ∀ f ∈ [Frame.mk tStdin [0x61], ⟨tStdinClose, []⟩],
      f.payload.length ≤ maxFramePayload := by
    simp [maxFramePayload]
  have has : ∀ a ∈ [Artifact.mk "é.png" [0x00]], a.Fits := by
    simp [Artifact.Fits, encodeName, maxFramePayload, String.utf8EncodeChar]
  obtain ⟨⟨writes, -, hbytes, hread⟩, hframes, -, -, -⟩ := relay_round_trip hfs has
  exact ⟨hread _ (by rw [hbytes]; rfl), hframes _ 12 rfl (by decide)⟩

end CodeRunner.Relay
