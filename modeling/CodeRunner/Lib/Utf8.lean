import Mathlib.Data.Nat.Notation
import Mathlib.Tactic.TypeStar

/-! # UTF-8 read one character at a time

A byte string is read from the left: a well-formed character is taken whole, and a byte that
begins none is taken alone. Decoding with replacement and escaping are such readings. A byte
string that is cut into pieces is decoded piece by piece without loss exactly if each piece is
valid.
-/

namespace Utf8

variable {α : Type*}

def decodeRune (bs : List UInt8) : Option Char := bs.toByteArray.utf8DecodeChar? 0

theorem decodeRune_encodeChar (c : Char) (bs : List UInt8) :
    decodeRune (String.utf8EncodeChar c ++ bs) = some c := by
  rw [decodeRune, List.toByteArray_append]
  exact ByteArray.utf8DecodeChar?_utf8EncodeChar_append

theorem exists_of_decodeRune {bs : List UInt8} {c : Char} (h : decodeRune bs = some c) :
    ∃ rest, bs = String.utf8EncodeChar c ++ rest := by
  obtain ⟨l, hl⟩ := ByteArray.exists_of_utf8DecodeChar?_eq_some h
  refine ⟨l.data.toList, ?_⟩
  rw [← List.toByteArray_inj, hl, List.toByteArray_append]
  congr 1
  ext1
  simp

@[simp] theorem decodeRune_nil : decodeRune [] = none := rfl

/-- What a reading makes of a byte string, from what it makes of a character and of a byte that
begins none. -/
def scanFuel (rune : Char → List α) (bad : List α) : ℕ → List UInt8 → List α
  | n + 1, b :: bs =>
    match decodeRune (b :: bs) with
    | some c => rune c ++ scanFuel rune bad n ((b :: bs).drop c.utf8Size)
    | none => bad ++ scanFuel rune bad n bs
  | _, _ => []

def scan (rune : Char → List α) (bad : List α) (bs : List UInt8) : List α :=
  scanFuel rune bad bs.length bs

variable {rune : Char → List α} {bad : List α} {bs : List UInt8} {b : UInt8} {c : Char}
  {cs : List Char} {n : ℕ}

theorem scanFuel_of_le (h : bs.length ≤ n) : scanFuel rune bad n bs = scan rune bad bs := by
  suffices hmono : ∀ n m, bs.length ≤ n → bs.length ≤ m →
      scanFuel rune bad n bs = scanFuel rune bad m bs from hmono n bs.length h (Nat.le_refl _)
  clear h
  intro n
  induction n generalizing bs with
  | zero =>
    intro m hn _
    obtain rfl := List.length_eq_zero_iff.mp (Nat.le_zero.mp hn)
    cases m <;> rfl
  | succ n ih =>
    intro m hn hm
    cases bs with
    | nil => cases m <;> rfl
    | cons b bs =>
      cases m with
      | zero => cases hm
      | succ m =>
        rw [List.length_cons] at hn hm
        rw [scanFuel, scanFuel]
        split
        · next c hc =>
          have hpos : 0 < c.utf8Size := c.utf8Size_pos
          have hle : ((b :: bs).drop c.utf8Size).length ≤ bs.length := by
            rw [List.length_drop, List.length_cons]
            omega
          rw [ih m (by omega) (by omega)]
        · rw [ih m (by omega) (by omega)]

@[simp] theorem scan_nil : scan rune bad [] = [] := rfl

theorem scan_rune (c : Char) (bs : List UInt8) :
    scan rune bad (String.utf8EncodeChar c ++ bs) = rune c ++ scan rune bad bs := by
  have hlen : (String.utf8EncodeChar c).length = c.utf8Size := String.length_utf8EncodeChar c
  have hpos : 0 < c.utf8Size := c.utf8Size_pos
  cases hbs : String.utf8EncodeChar c ++ bs with
  | nil =>
    rw [List.append_eq_nil_iff] at hbs
    rw [hbs.1] at hlen
    cases hlen.symm ▸ hpos
  | cons b rest =>
    have htotal : (b :: rest).length = c.utf8Size + bs.length := by
      rw [← hbs, List.length_append, hlen]
    rw [List.length_cons] at htotal
    have hrune : decodeRune (b :: rest) = some c := hbs ▸ decodeRune_encodeChar c bs
    have hdrop : (b :: rest).drop c.utf8Size = bs := by
      rw [← hbs, ← hlen, List.drop_left]
    rw [scan, List.length_cons, scanFuel, hrune]
    change rune c ++ scanFuel rune bad rest.length ((b :: rest).drop c.utf8Size) = _
    rw [hdrop, scanFuel_of_le (by omega)]

theorem scan_bad (h : decodeRune (b :: bs) = none) :
    scan rune bad (b :: bs) = bad ++ scan rune bad bs := by
  rw [scan, List.length_cons, scanFuel, h]
  rfl

theorem reading {P : List UInt8 → Prop} (nil : P [])
    (rune : ∀ c bs, P bs → P (String.utf8EncodeChar c ++ bs))
    (bad : ∀ b bs, decodeRune (b :: bs) = none → P bs → P (b :: bs)) (bs : List UInt8) : P bs := by
  induction hn : bs.length using Nat.strongRecOn generalizing bs with
  | ind n ih =>
    subst hn
    cases bs with
    | nil => exact nil
    | cons b bs =>
      cases hc : decodeRune (b :: bs) with
      | none => exact bad b bs hc (ih bs.length (Nat.lt_succ_self _) bs rfl)
      | some c =>
        obtain ⟨rest, hrest⟩ := exists_of_decodeRune hc
        have hlen : (b :: bs).length = c.utf8Size + rest.length := by
          rw [hrest, List.length_append, String.length_utf8EncodeChar]
        have hpos : 0 < c.utf8Size := c.utf8Size_pos
        rw [hrest]
        exact rune c rest (ih rest.length (by omega) rest rfl)

def encode (cs : List Char) : List UInt8 := cs.flatMap String.utf8EncodeChar

def Valid (bs : List UInt8) : Prop := ∃ cs, encode cs = bs

theorem encode_cons : encode (c :: cs) = String.utf8EncodeChar c ++ encode cs := rfl

theorem encode_append {cs' : List Char} : encode (cs ++ cs') = encode cs ++ encode cs' :=
  List.flatMap_append

theorem length_encode_toList (s : String) : (encode s.toList).length = s.utf8ByteSize := by
  have hbytes : s.toByteArray = s.toList.utf8Encode := by
    rw [← String.toByteArray_ofList, String.ofList_toList]
  rw [← String.size_toByteArray, hbytes, List.utf8Encode, List.size_toByteArray, encode]

theorem scan_encode_append :
    scan rune bad (encode cs ++ bs) = cs.flatMap rune ++ scan rune bad bs := by
  induction cs with
  | nil => rfl
  | cons c cs ih => rw [encode_cons, List.append_assoc, scan_rune, ih, List.flatMap_cons,
      List.append_assoc]

def damage (bs : List UInt8) : ℕ := (scan (fun _ => []) [()] bs).length

@[simp] theorem damage_nil : damage [] = 0 := rfl

theorem damage_rune : damage (String.utf8EncodeChar c ++ bs) = damage bs := by
  rw [damage, scan_rune, List.nil_append, damage]

theorem damage_bad (h : decodeRune (b :: bs) = none) : damage (b :: bs) = damage bs + 1 := by
  rw [damage, scan_bad h, List.length_append, List.length_singleton, Nat.add_comm, damage]

theorem damage_encode_append : damage (encode cs ++ bs) = damage bs := by
  induction cs with
  | nil => rfl
  | cons c cs ih => rw [encode_cons, List.append_assoc, damage_rune, ih]

theorem valid_iff_damage : Valid bs ↔ damage bs = 0 := by
  constructor
  · rintro ⟨cs, rfl⟩
    rw [← List.append_nil (encode cs), damage_encode_append, damage_nil]
  · induction bs using reading with
    | nil => exact fun _ => ⟨[], rfl⟩
    | rune c bs ih =>
      intro h
      rw [damage_rune] at h
      obtain ⟨cs, rfl⟩ := ih h
      exact ⟨c :: cs, rfl⟩
    | bad b bs hb _ =>
      intro h
      rw [damage_bad hb] at h
      cases h

instance : DecidablePred Valid := fun _ => decidable_of_iff' _ valid_iff_damage

@[simp] theorem valid_nil : Valid [] := ⟨[], rfl⟩

theorem Valid.append {bs' : List UInt8} (h : Valid bs) (h' : Valid bs') : Valid (bs ++ bs') := by
  obtain ⟨cs, rfl⟩ := h
  obtain ⟨cs', rfl⟩ := h'
  exact ⟨cs ++ cs', encode_append⟩

theorem Valid.append_iff {bs' : List UInt8} (h : Valid bs) : Valid (bs ++ bs') ↔ Valid bs' := by
  obtain ⟨cs, rfl⟩ := h
  rw [valid_iff_damage, valid_iff_damage, damage_encode_append]

theorem Valid.flatten {ps : List (List UInt8)} (h : ∀ p ∈ ps, Valid p) : Valid ps.flatten := by
  induction ps with
  | nil => exact valid_nil
  | cons p ps ih =>
    rw [List.flatten_cons]
    apply (h p List.mem_cons_self).append
    exact ih fun q hq => h q (List.mem_cons_of_mem p hq)

def decode (bs : List UInt8) : List Char := scan (fun c => [c]) ['\uFFFD'] bs

theorem decode_encode : decode (encode cs) = cs := by
  have hscan : decode (encode cs ++ []) = cs.flatMap (fun c => [c]) ++ [] := scan_encode_append
  rw [List.append_nil, List.append_nil] at hscan
  simpa using hscan

theorem length_encode_decode : (encode (decode bs)).length = bs.length + 2 * damage bs := by
  induction bs using reading with
  | nil => rfl
  | rune c bs ih =>
    rw [decode, scan_rune, damage_rune, ← decode, encode_append, List.length_append, ih,
      List.length_append]
    have hone : encode [c] = String.utf8EncodeChar c := List.append_nil _
    rw [hone]
    omega
  | bad b bs hb ih =>
    rw [decode, scan_bad hb, damage_bad hb, ← decode, encode_append, List.length_append, ih,
      List.length_cons]
    have hthree : (encode ['\uFFFD']).length = 3 := rfl
    omega

/-- A valid byte string that is cut into pieces is decoded piece by piece without loss exactly if
each piece is valid. -/
theorem flatMap_decode_iff {ps : List (List UInt8)} (h : ps.flatten = encode cs) :
    ps.flatMap decode = cs ↔ ∀ p ∈ ps, Valid p := by
  constructor
  · intro hdec p hp
    have hlen : ∀ qs : List (List UInt8), (encode (qs.flatMap decode)).length =
        qs.flatten.length + 2 * (qs.map damage).sum := by
      intro qs
      induction qs with
      | nil => rfl
      | cons q qs ih =>
        rw [List.flatMap_cons, encode_append, List.length_append, ih, length_encode_decode,
          List.flatten_cons, List.length_append, List.map_cons, List.sum_cons]
        omega
    have hsum := hlen ps
    rw [hdec, ← h] at hsum
    have hzero : (ps.map damage).sum = 0 := by omega
    rw [List.sum_eq_zero_iff_forall_eq_nat] at hzero
    exact valid_iff_damage.mpr (hzero _ (List.mem_map_of_mem hp))
  · intro hvalid
    have henc : encode (ps.flatMap decode) = ps.flatten := by
      clear h
      induction ps with
      | nil => rfl
      | cons p ps ih =>
        obtain ⟨cs, rfl⟩ := hvalid p List.mem_cons_self
        rw [List.flatMap_cons, encode_append, decode_encode, List.flatten_cons,
          ih fun q hq => hvalid q (List.mem_cons_of_mem _ hq)]
    rw [h] at henc
    have hback : decode (encode (ps.flatMap decode)) = ps.flatMap decode := decode_encode
    rw [← hback, henc, decode_encode]

def isContinuation (b : UInt8) : Bool := b &&& 0xC0 == 0x80

theorem isContinuation_tail : ∀ n < 64, isContinuation (UInt8.ofNat (n + 0x80)) = true := by
  decide

theorem isContinuation_lead :
    (∀ n < 128, isContinuation (UInt8.ofNat n) = false) ∧
      (∀ n < 32, isContinuation (UInt8.ofNat (n + 0xc0)) = false) ∧
      (∀ n < 16, isContinuation (UInt8.ofNat (n + 0xe0)) = false) ∧
      ∀ n < 8, isContinuation (UInt8.ofNat (n + 0xf0)) = false := by
  decide

theorem encodeChar_shape (c : Char) :
    ∃ b conts, String.utf8EncodeChar c = b :: conts ∧ isContinuation b = false ∧
      conts.length ≤ 3 ∧ ∀ x ∈ conts, isContinuation x = true := by
  obtain ⟨h1, h2, h3, h4⟩ := isContinuation_lead
  have htail : ∀ v, isContinuation (UInt8.ofNat (v % 0x40 + 0x80)) = true := fun v =>
    isContinuation_tail _ (Nat.mod_lt _ (by decide))
  unfold String.utf8EncodeChar
  dsimp only
  split
  · next hv => exact ⟨_, _, rfl, h1 _ (by omega), by decide, nofun⟩
  · split
    · refine ⟨_, _, rfl, h2 _ (Nat.mod_lt _ (by decide)), by simp, ?_⟩
      simp only [List.mem_singleton, forall_eq]
      exact htail _
    · split
      · refine ⟨_, _, rfl, h3 _ (Nat.mod_lt _ (by decide)), by simp, ?_⟩
        simp only [List.mem_cons, List.not_mem_nil, or_false, forall_eq_or_imp, forall_eq]
        exact ⟨htail _, htail _⟩
      · refine ⟨_, _, rfl, h4 _ (Nat.mod_lt _ (by decide)), by simp, ?_⟩
        simp only [List.mem_cons, List.not_mem_nil, or_false, forall_eq_or_imp, forall_eq]
        exact ⟨htail _, htail _, htail _⟩

theorem encodeChar_ascii (c : Char) :
    (c.toNat < 0x80 ∧ String.utf8EncodeChar c = [.ofNat c.toNat]) ∨
      (0x80 ≤ c.toNat ∧ ∀ x ∈ String.utf8EncodeChar c, 0x80 ≤ x.toNat) := by
  have hlead : ∀ n lead, 0x80 ≤ lead → n + lead < 0x100 →
      0x80 ≤ (UInt8.ofNat (n + lead)).toNat := by
    intro n lead hlead hlt
    rw [UInt8.toNat_ofNat']
    omega
  have hv : c.val.toNat = c.toNat := rfl
  unfold String.utf8EncodeChar
  dsimp only
  rw [hv]
  split
  · exact .inl ⟨by omega, rfl⟩
  · right
    refine ⟨by omega, ?_⟩
    split
    · simp only [List.mem_cons, List.not_mem_nil, or_false, forall_eq_or_imp, forall_eq]
      exact ⟨hlead _ _ (by omega) (by omega), hlead _ _ (by omega) (by omega)⟩
    · split
      · simp only [List.mem_cons, List.not_mem_nil, or_false, forall_eq_or_imp, forall_eq]
        exact ⟨hlead _ _ (by omega) (by omega), hlead _ _ (by omega) (by omega),
          hlead _ _ (by omega) (by omega)⟩
      · simp only [List.mem_cons, List.not_mem_nil, or_false, forall_eq_or_imp, forall_eq]
        exact ⟨hlead _ _ (by omega) (by omega), hlead _ _ (by omega) (by omega),
          hlead _ _ (by omega) (by omega), hlead _ _ (by omega) (by omega)⟩

theorem Valid.head (h : Valid (b :: bs)) : isContinuation b = false := by
  obtain ⟨cs, hcs⟩ := h
  cases cs with
  | nil => cases hcs
  | cons c cs =>
    obtain ⟨b', conts, hc, hb, -, -⟩ := encodeChar_shape c
    rw [encode_cons, hc] at hcs
    obtain ⟨rfl, -⟩ := List.cons.inj hcs
    exact hb

theorem Valid.cut {pre post : List UInt8} (h : Valid (pre ++ b :: post))
    (hb : isContinuation b = false) : Valid pre := by
  obtain ⟨cs, hcs⟩ := h
  induction cs generalizing pre with
  | nil => exact absurd hcs.symm (List.append_ne_nil_of_right_ne_nil pre nofun)
  | cons c cs ih =>
    have hone : Valid (String.utf8EncodeChar c) := ⟨[c], List.append_nil _⟩
    rw [encode_cons, List.append_eq_append_iff] at hcs
    rcases hcs with ⟨pre', rfl, hcs⟩ | ⟨rest, hc, hcs⟩
    · exact hone.append (ih hcs)
    · cases rest with
      | nil =>
        rw [List.append_nil] at hc
        exact hc ▸ hone
      | cons b' rest =>
        obtain ⟨rfl, -⟩ := List.cons.inj hcs
        obtain ⟨lead, conts, hshape, -, -, hconts⟩ := encodeChar_shape c
        cases pre with
        | nil => exact valid_nil
        | cons b' pre =>
          rw [hshape] at hc
          have hmem : b ∈ conts := by
            rw [(List.cons.inj hc).2]
            exact List.mem_append_right _ List.mem_cons_self
          rw [hconts b hmem] at hb
          cases hb

/-- One of the first bytes after the head of a valid byte string is no continuation byte. -/
theorem Valid.exists_lead (h : Valid bs) (hlen : 4 < bs.length) :
    ∃ k, 0 < k ∧ k ≤ 4 ∧ ∃ hk : k < bs.length, isContinuation bs[k] = false := by
  obtain ⟨cs, hcs⟩ := h
  cases cs with
  | nil =>
    subst hcs
    cases hlen
  | cons c cs =>
    obtain ⟨b, conts, hc, -, hconts, -⟩ := encodeChar_shape c
    rw [encode_cons] at hcs
    have hsize : (String.utf8EncodeChar c).length = conts.length + 1 := by rw [hc]; rfl
    cases hrest : encode cs with
    | nil =>
      rw [hrest, List.append_nil] at hcs
      rw [← hcs, hsize] at hlen
      omega
    | cons b' rest =>
      have hvalid : Valid (b' :: rest) := ⟨cs, hrest⟩
      rw [hrest] at hcs
      subst hcs
      refine ⟨conts.length + 1, Nat.succ_pos _, by omega, ?_, ?_⟩
      · rw [List.length_append, hsize, List.length_cons]
        omega
      · rw [List.getElem_append_right (by omega)]
        simp only [hsize, Nat.sub_self, List.getElem_cons_zero]
        exact hvalid.head

end Utf8
