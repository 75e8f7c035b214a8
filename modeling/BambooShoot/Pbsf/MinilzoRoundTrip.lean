import BambooShoot.Pbsf.Minilzo

/-!
# The LZO library undoes what it does

`lzo1x_decompress` on what `lzo1x_1_compress` has written, step by step along
the compressor's loops: `Arrives out op` says where the decompressor stands
behind the bytes `out`, whatever follows them and whatever the compressor still
writes into the low bits of the last match.

* `step_match`, `run_literals`: the two kinds of code, read back;
* `covers_coreLoop`, `covers_compressChunks`: the loops of the compressor keep
  `Covers`;
* `lzo1xDecompress_lzo1x1Compress`: the round trip, and how far the compressor
  stores;
* `Lzo.minilzo`: the library the wrappers are linked with.
-/

namespace BambooShoot.Pbsf

open BambooShoot.Lib BambooShoot.Pbss

/-! ## Bytes -/

theorem toNat_lzoByte {n : ℕ} (h : n < 256) : (lzoByte n).toNat = n := by
  rw [lzoByte, BitVec.toNat_ofNat, Nat.mod_eq_of_lt h]

theorem lzoByte_ne_zero {n : ℕ} (hpos : 0 < n) (h : n < 256) : lzoByte n ≠ 0 := by
  intro hzero
  have := congrArg BitVec.toNat hzero
  rw [toNat_lzoByte h] at this
  exact absurd this (Nat.ne_of_gt hpos)

theorem modify_length_append {α : Type} (f : α → α) (a : List α) (x : α) (l : List α) :
    (a ++ x :: l).modify a.length f = a ++ f x :: l := by
  induction a with
  | nil => rfl
  | cons y a ih => exact congrArg (y :: ·) ih

/-- The byte before the last takes the low bits. -/
theorem orLow_append (s : ℕ) (a : List Byte) (x y : Byte) :
    orLow s (a ++ [x, y]) = a ++ [x ||| lzoByte s, y] := by
  unfold orLow
  rw [List.length_append]
  exact modify_length_append _ a x [y]

/-- A length that did not fit is read back. -/
theorem readZeros_lengthBytes {n : ℕ} (hn : 0 < n) (t : ℕ) (rest : List Byte) :
    readZeros t (lengthBytes n ++ rest) = some (t + n, rest) := by
  induction n using lengthBytes.induct generalizing t with
  | case1 n hlong ih =>
    rw [lengthBytes, if_pos hlong, List.cons_append, readZeros, if_pos rfl, ih (by omega),
      Nat.add_assoc, Nat.add_sub_cancel' (Nat.le_of_lt hlong)]
  | case2 n hlong =>
    rw [lengthBytes, if_neg hlong, List.singleton_append, readZeros,
      if_neg (lzoByte_ne_zero hn (by omega)), toNat_lzoByte (by omega)]

theorem length_lengthBytes {n : ℕ} (hn : 0 < n) :
    (lengthBytes n).length = (n - 1) / 255 + 1 := by
  induction n using lengthBytes.induct with
  | case1 n hlong ih =>
    rw [lengthBytes, if_pos hlong, List.length_cons, ih (by omega)]
    omega
  | case2 n hlong =>
    rw [lengthBytes, if_neg hlong, List.length_singleton]
    omega

/-! ## The codes of a match -/

/-- The first byte of a match that is near and short, with the low bits. -/
def m2Byte (mLen low s : ℕ) : Byte :=
  lzoByte (((mLen - 1) <<< 5) ||| (low <<< 2)) ||| lzoByte s

theorem m2Byte_spec : ∀ n < 5, ∀ low < 8, ∀ s < 4,
    64 ≤ (m2Byte (n + 4) low s).toNat ∧ ((m2Byte (n + 4) low s).toNat >>> 2) &&& 7 = low ∧
      ((m2Byte (n + 4) low s).toNat >>> 5) - 1 + 2 = n + 4 ∧
        (m2Byte (n + 4) low s).toNat &&& 3 = s := by
  decide +kernel

theorem m3Byte_spec : ∀ n < 32, 32 ≤ (lzoByte (32 ||| n)).toNat ∧
    (lzoByte (32 ||| n)).toNat < 64 ∧ (lzoByte (32 ||| n)).toNat &&& 31 = n := by
  decide +kernel

/-- The first byte of a match that is far: the highest bit of the offset is in it. -/
def m4Byte (high n : ℕ) : Byte := lzoByte (16 ||| (high &&& 8) ||| n)

theorem m4Byte_spec : ∀ high < 16, ∀ n < 8, 16 ≤ (m4Byte high n).toNat ∧
    (m4Byte high n).toNat < 32 ∧ ((m4Byte high n).toNat &&& 8) <<< 11 = high / 8 * 0x4000 ∧
      (m4Byte high n).toNat &&& 7 = n := by
  decide +kernel

theorem lowOffset : ∀ low < 64, ∀ s < 4, (lzoByte (low <<< 2) ||| lzoByte s).toNat >>> 2 = low ∧
    (lzoByte (low <<< 2) ||| lzoByte s).toNat &&& 3 = s := by
  decide +kernel

/-- The two bytes of an offset, with the low bits. -/
theorem offsetBytes (mOff : ℕ) {s : ℕ} (hs : s < 4) :
    ((lzoByte (mOff <<< 2) ||| lzoByte s).toNat >>> 2) + ((lzoByte (mOff >>> 6)).toNat <<< 6) =
      mOff % 0x4000 ∧ (lzoByte (mOff <<< 2) ||| lzoByte s).toNat &&& 3 = s := by
  have hlow : lzoByte (mOff <<< 2) = lzoByte ((mOff % 64) <<< 2) := by
    apply BitVec.eq_of_toNat_eq
    simp only [lzoByte, BitVec.toNat_ofNat, Nat.shiftLeft_eq]
    omega
  obtain ⟨hshift, hand⟩ := lowOffset (mOff % 64) (Nat.mod_lt _ (by decide)) s hs
  refine ⟨?_, hlow ▸ hand⟩
  rw [hlow, hshift]
  simp only [lzoByte, BitVec.toNat_ofNat, Nat.shiftLeft_eq, Nat.shiftRight_eq_div_pow]
  omega

/-- Where the decompressor goes on behind a match with the low bits `s`. -/
def labelOf (s : ℕ) : Label := if s = 0 then .literalRun else .matchNext s

/-- A match is read back: `b` is what `match` is entered with. -/
structure ReadsMatch (code : List Byte) (mLen mOff s : ℕ) (b : Byte) (rest : List Byte) : Prop where
  code_eq : code = b :: rest
  le : 16 ≤ b.toNat
  step_eq : ∀ (behind op : List Byte), mOff ≤ op.length →
    Decompressor.step ⟨.match b.toNat, rest ++ behind, op⟩ =
      .inr ⟨labelOf s, behind, copyBack mOff mLen op⟩

theorem copyMatch_eq {mOff mLen low s : ℕ} {ip op : List Byte} (h : mOff ≤ op.length)
    (hs : low &&& 3 = s) :
    copyMatch mOff mLen low ip op = .inr ⟨labelOf s, ip, copyBack mOff mLen op⟩ := by
  unfold copyMatch
  rw [if_pos h, hs]
  rfl

theorem step_m2 {mLen mOff s : ℕ} (hlen : 4 ≤ mLen) (hshort : mLen ≤ 8) (hpos : 0 < mOff)
    (hnear : mOff ≤ 0x0800) (hs : s < 4) :
    ∃ b rest, ReadsMatch (orLow s (matchBytes mLen mOff)) mLen mOff s b rest := by
  have hand : (mOff - 1) &&& 7 = (mOff - 1) % 8 := Nat.and_two_pow_sub_one_eq_mod _ 3
  obtain ⟨n, rfl⟩ := Nat.exists_eq_add_of_le' hlen
  obtain ⟨ht, hlow, hcount, hbits⟩ :=
    m2Byte_spec n (by omega) ((mOff - 1) &&& 7) (by omega) s hs
  refine ⟨m2Byte (n + 4) ((mOff - 1) &&& 7) s, [lzoByte ((mOff - 1) >>> 3)], ?_, by omega, ?_⟩
  · unfold matchBytes
    rw [if_pos ⟨hshort, hnear⟩]
    exact orLow_append s [] _ _
  · intro behind op hop
    have hoff : 1 + ((mOff - 1) &&& 7) + ((lzoByte ((mOff - 1) >>> 3)).toNat <<< 3) = mOff := by
      rw [toNat_lzoByte (by rw [Nat.shiftRight_eq_div_pow]; omega), hand, Nat.shiftLeft_eq,
        Nat.shiftRight_eq_div_pow]
      omega
    simp only [List.singleton_append, Decompressor.step]
    rw [if_pos ht, hlow, hcount, hoff]
    exact copyMatch_eq hop hbits

/-- What stands in the first byte for the length of a match, and what behind it. -/
def lengthField (most mLen : ℕ) : ℕ := if mLen ≤ most then mLen - 2 else 0

def lengthTail (most mLen : ℕ) : List Byte := if mLen ≤ most then [] else lengthBytes (mLen - most)

theorem readLength_lengthTail {most mLen : ℕ} (hlen : 3 ≤ mLen) (hmost : 2 ≤ most)
    (rest : List Byte) :
    readLength (lengthField most mLen) (most - 2) (lengthTail most mLen ++ rest) =
      some (mLen - 2, rest) := by
  unfold readLength lengthField lengthTail
  by_cases hshort : mLen ≤ most
  · rw [if_pos hshort, if_pos hshort, if_neg (by omega)]
    rfl
  · rw [if_neg hshort, if_neg hshort, if_pos rfl, readZeros_lengthBytes (by omega),
      show most - 2 + (mLen - most) = mLen - 2 by omega]

theorem matchBytes_m3 {mLen mOff : ℕ} (hfar : ¬ (mLen ≤ 8 ∧ mOff ≤ 0x0800)) (hnear : mOff ≤ 0x4000) :
    matchBytes mLen mOff = (lzoByte (32 ||| lengthField 33 mLen) :: lengthTail 33 mLen) ++
      [lzoByte ((mOff - 1) <<< 2), lzoByte ((mOff - 1) >>> 6)] := by
  unfold matchBytes lengthField lengthTail
  rw [if_neg hfar, if_pos hnear]
  split_ifs <;> rfl

theorem matchBytes_m4 {mLen mOff : ℕ} (hfar : ¬ mOff ≤ 0x4000) :
    matchBytes mLen mOff =
      (m4Byte ((mOff - 0x4000) >>> 11) (lengthField 9 mLen) :: lengthTail 9 mLen) ++
        [lzoByte ((mOff - 0x4000) <<< 2), lzoByte ((mOff - 0x4000) >>> 6)] := by
  unfold matchBytes lengthField lengthTail m4Byte
  rw [if_neg (by omega), if_neg hfar]
  split_ifs
  · rfl
  · rw [Nat.or_zero]

theorem step_match_m3 {t n : ℕ} {ip ip' : List Byte} {b₀ b₁ : Byte} (hle : 32 ≤ t) (hlt : t < 64)
    (hread : readLength (t &&& 31) 31 ip = some (n, b₀ :: b₁ :: ip')) (op : List Byte) :
    Decompressor.step ⟨.match t, ip, op⟩ =
      copyMatch (1 + (b₀.toNat >>> 2) + (b₁.toNat <<< 6)) (n + 2) b₀.toNat ip' op := by
  cases ip with
  | nil => simpa using readLength_length hread
  | cons b ip =>
    simp only [Decompressor.step]
    rw [if_neg (by omega), if_pos hle, hread]

theorem step_match_m4 {t n : ℕ} {ip ip' : List Byte} {b₀ b₁ : Byte} (hle : 16 ≤ t) (hlt : t < 32)
    (hread : readLength (t &&& 7) 7 ip = some (n, b₀ :: b₁ :: ip')) (op : List Byte) :
    Decompressor.step ⟨.match t, ip, op⟩ =
      if ((t &&& 8) <<< 11) + (b₀.toNat >>> 2) + (b₁.toNat <<< 6) = 0 then .inl (eofFound ip' op)
      else copyMatch (((t &&& 8) <<< 11) + (b₀.toNat >>> 2) + (b₁.toNat <<< 6) + 0x4000) (n + 2)
        b₀.toNat ip' op := by
  cases ip with
  | nil => simpa using readLength_length hread
  | cons b ip =>
    simp only [Decompressor.step]
    rw [if_neg (by omega), if_neg (by omega), if_pos hle, hread]

theorem step_m3 {mLen mOff s : ℕ} (hlen : 4 ≤ mLen) (hpos : 0 < mOff)
    (hfar : ¬ (mLen ≤ 8 ∧ mOff ≤ 0x0800)) (hnear : mOff ≤ 0x4000) (hs : s < 4) :
    ∃ b rest, ReadsMatch (orLow s (matchBytes mLen mOff)) mLen mOff s b rest := by
  have hfield : lengthField 33 mLen < 32 := by
    unfold lengthField
    split_ifs <;> omega
  obtain ⟨hle, hlt, hand⟩ := m3Byte_spec (lengthField 33 mLen) hfield
  obtain ⟨hoff, hbits⟩ := offsetBytes (mOff - 1) hs
  refine ⟨lzoByte (32 ||| lengthField 33 mLen), lengthTail 33 mLen ++
    [lzoByte ((mOff - 1) <<< 2) ||| lzoByte s, lzoByte ((mOff - 1) >>> 6)], ?_, by omega, ?_⟩
  · rw [matchBytes_m3 hfar hnear, orLow_append]
    rfl
  · intro behind op hop
    have hread := readLength_lengthTail (by omega : 3 ≤ mLen) (by decide : 2 ≤ 33)
      ((lzoByte ((mOff - 1) <<< 2) ||| lzoByte s) :: lzoByte ((mOff - 1) >>> 6) :: behind)
    rw [← hand] at hread
    rw [List.append_assoc, List.cons_append, List.cons_append, List.nil_append,
      step_match_m3 hle hlt hread, Nat.add_assoc, hoff, Nat.mod_eq_of_lt (by omega),
      Nat.add_sub_cancel' hpos, Nat.sub_add_cancel (by omega)]
    exact copyMatch_eq hop hbits

theorem step_m4 {mLen mOff s : ℕ} (hlen : 4 ≤ mLen) (hfar : ¬ mOff ≤ 0x4000) (hle : mOff ≤ 0xbfff)
    (hs : s < 4) :
    ∃ b rest, ReadsMatch (orLow s (matchBytes mLen mOff)) mLen mOff s b rest := by
  have hfield : lengthField 9 mLen < 8 := by
    unfold lengthField
    split_ifs <;> omega
  have hshift : (mOff - 0x4000) >>> 11 = (mOff - 0x4000) / 2048 := Nat.shiftRight_eq_div_pow _ _
  obtain ⟨hle16, hlt, hhigh, hand⟩ :=
    m4Byte_spec ((mOff - 0x4000) >>> 11) (by omega) (lengthField 9 mLen) hfield
  obtain ⟨hoff, hbits⟩ := offsetBytes (mOff - 0x4000) hs
  refine ⟨m4Byte ((mOff - 0x4000) >>> 11) (lengthField 9 mLen), lengthTail 9 mLen ++
    [lzoByte ((mOff - 0x4000) <<< 2) ||| lzoByte s, lzoByte ((mOff - 0x4000) >>> 6)], ?_,
    hle16, ?_⟩
  · rw [matchBytes_m4 hfar, orLow_append]
    rfl
  · intro behind op hop
    have hread := readLength_lengthTail (by omega : 3 ≤ mLen) (by decide : 2 ≤ 9)
      ((lzoByte ((mOff - 0x4000) <<< 2) ||| lzoByte s) :: lzoByte ((mOff - 0x4000) >>> 6) :: behind)
    rw [← hand] at hread
    have hsum : (mOff - 0x4000) >>> 11 / 8 * 0x4000 + (mOff - 0x4000) % 0x4000 = mOff - 0x4000 := by
      rw [hshift]
      omega
    rw [List.append_assoc, List.cons_append, List.cons_append, List.nil_append,
      step_match_m4 hle16 hlt hread, Nat.add_assoc, hhigh, hoff, hsum, if_neg (by omega),
      Nat.sub_add_cancel (by omega), Nat.sub_add_cancel (by omega)]
    exact copyMatch_eq hop hbits

/-- Every match the compressor writes is read back. -/
theorem step_match {mLen mOff s : ℕ} (hlen : 4 ≤ mLen) (hpos : 0 < mOff) (hle : mOff ≤ 0xbfff)
    (hs : s < 4) :
    ∃ b rest, ReadsMatch (orLow s (matchBytes mLen mOff)) mLen mOff s b rest := by
  by_cases hm2 : mLen ≤ 8 ∧ mOff ≤ 0x0800
  · exact step_m2 hlen hm2.1 hpos hm2.2 hs
  · by_cases hm3 : mOff ≤ 0x4000
    · exact step_m3 hlen hpos hm2 hm3 hs
    · exact step_m4 hlen hm3 hle hs

/-! ## Literals -/

theorem run_of_step {d d' : Decompressor} (h : d.step = .inr d') : d.run = d'.run := by
  rw [Decompressor.run]
  split
  · rename_i status hstatus
    rw [h] at hstatus
    cases hstatus
  · rename_i next hnext
    rw [h] at hnext
    cases hnext
    rfl

/-- What stands before four literals and more. -/
def literalHeader (t : ℕ) : List Byte :=
  if t ≤ 18 then [lzoByte (t - 3)] else 0 :: lengthBytes (t - 18)

/-- The output with the literals `run` behind it. -/
def literalBytes (run out : List Byte) : List Byte :=
  if run.length = 0 then out
  else if run.length ≤ 3 then orLow run.length out ++ run
  else out ++ literalHeader run.length ++ run

theorem copyLiterals_eq (label : Label) (run rest op : List Byte) :
    copyLiterals label run.length (run ++ rest) op = .inr ⟨label, rest, op ++ run⟩ := by
  unfold copyLiterals
  rw [if_pos (by simp), List.drop_left, List.take_left]

theorem step_literalRun {run : List Byte} (h : 4 ≤ run.length) (rest op : List Byte) :
    Decompressor.step ⟨.literalRun, literalHeader run.length ++ (run ++ rest), op⟩ =
      .inr ⟨.firstLiteralRun, rest, op ++ run⟩ := by
  unfold literalHeader
  split_ifs with hshort
  · simp only [List.singleton_append, Decompressor.step]
    rw [toNat_lzoByte (by omega), if_neg (by omega), readLength, if_neg (by omega)]
    simp only [Nat.sub_add_cancel (by omega : 3 ≤ run.length)]
    exact copyLiterals_eq _ _ _ _
  · simp only [List.cons_append, Decompressor.step]
    rw [if_neg (by decide), readLength, if_pos (by decide), readZeros_lengthBytes (by omega)]
    simp only [show 15 + (run.length - 18) + 3 = run.length by omega]
    exact copyLiterals_eq _ _ _ _

theorem step_firstLiteralRun {b : Byte} (hb : 16 ≤ b.toNat) (rest op : List Byte) :
    Decompressor.step ⟨.firstLiteralRun, b :: rest, op⟩ = .inr ⟨.match b.toNat, rest, op⟩ := by
  simp only [Decompressor.step]
  rw [if_pos hb]

theorem step_literalRun_match {b : Byte} (hb : 16 ≤ b.toNat) (rest op : List Byte) :
    Decompressor.step ⟨.literalRun, b :: rest, op⟩ = .inr ⟨.match b.toNat, rest, op⟩ := by
  simp only [Decompressor.step]
  rw [if_pos hb]

theorem step_matchNext {run : List Byte} (h : run ≠ []) (b : Byte) (rest op : List Byte) :
    Decompressor.step ⟨.matchNext run.length, run ++ b :: rest, op⟩ =
      .inr ⟨.match b.toNat, rest, op ++ run⟩ := by
  obtain ⟨x, xs, rfl⟩ := List.exists_cons_of_ne_nil h
  have hdrop : (x :: (xs ++ b :: rest)).drop (x :: xs).length = b :: rest := List.drop_left
  have htake : (x :: (xs ++ b :: rest)).take (x :: xs).length = x :: xs := List.take_left
  simp only [List.cons_append, Decompressor.step, hdrop, htake]

/-! ## Where the decompressor stands -/

/-- Behind `out` the decompressor has put out `op`; the low bits of the last
    match may still be set. -/
def Arrives (out op : List Byte) : Prop :=
  2 ≤ out.length ∧ ∀ s < 4, ∀ rest,
    lzo1xDecompress (orLow s out ++ rest) = Decompressor.run ⟨labelOf s, rest, op⟩

/-- Nothing has been written, or the decompressor reads back what has been. -/
def MayStart (out op : List Byte) : Prop := (out = [] ∧ op = []) ∨ Arrives out op

theorem exists_last_two {l : List Byte} (h : 2 ≤ l.length) : ∃ a x y, l = a ++ [x, y] := by
  have hlen : (l.drop (l.length - 2)).length = 2 := by
    rw [List.length_drop]
    omega
  obtain ⟨x, y, hxy⟩ := List.length_eq_two.1 hlen
  exact ⟨l.take (l.length - 2), x, y, by rw [← hxy, List.take_append_drop]⟩

theorem orLow_zero {l : List Byte} (h : 2 ≤ l.length) : orLow 0 l = l := by
  obtain ⟨a, x, y, rfl⟩ := exists_last_two h
  rw [orLow_append, show lzoByte 0 = 0#8 by rfl, BitVec.or_zero]

theorem orLow_append_right (s : ℕ) (a : List Byte) {l : List Byte} (h : 2 ≤ l.length) :
    orLow s (a ++ l) = a ++ orLow s l := by
  obtain ⟨l, x, y, rfl⟩ := exists_last_two h
  rw [← List.append_assoc, orLow_append, orLow_append, List.append_assoc]

theorem Arrives.literalRun {out op : List Byte} (h : Arrives out op) (rest : List Byte) :
    lzo1xDecompress (out ++ rest) = Decompressor.run ⟨.literalRun, rest, op⟩ := by
  have := h.2 0 (by decide) rest
  rwa [orLow_zero h.1] at this

/-- A stream begins with a run of literals unless its first byte is above 17. -/
theorem lzo1xDecompress_of_le {b : Byte} (h : b.toNat ≤ 17) (rest : List Byte) :
    lzo1xDecompress (b :: rest) = Decompressor.run ⟨.literalRun, b :: rest, []⟩ := by
  unfold lzo1xDecompress
  exact if_neg (by omega)

theorem lzo1xDecompress_literalHeader {t : ℕ} (h : 4 ≤ t) (rest : List Byte) :
    lzo1xDecompress (literalHeader t ++ rest) =
      Decompressor.run ⟨.literalRun, literalHeader t ++ rest, []⟩ := by
  unfold literalHeader
  split_ifs with hshort
  · exact lzo1xDecompress_of_le (by rw [toNat_lzoByte (by omega)]; omega) rest
  · exact lzo1xDecompress_of_le (by decide) _

/-- Literals are read back where a match follows them. -/
theorem run_literals {out op run : List Byte} (h : MayStart out op)
    (hfirst : out = [] → 4 ≤ run.length) {b : Byte} (hb : 16 ≤ b.toNat) (rest : List Byte) :
    lzo1xDecompress (literalBytes run out ++ b :: rest) =
      Decompressor.run ⟨.match b.toNat, rest, op ++ run⟩ := by
  have hlong (hrun : 4 ≤ run.length) :
      Decompressor.run ⟨.literalRun, literalHeader run.length ++ (run ++ b :: rest), op⟩ =
        Decompressor.run ⟨.match b.toNat, rest, op ++ run⟩ := by
    rw [run_of_step (step_literalRun hrun _ _), run_of_step (step_firstLiteralRun hb _ _)]
  unfold literalBytes
  obtain ⟨rfl, rfl⟩ | h := h
  · have hrun := hfirst rfl
    rw [if_neg (by omega), if_neg (by omega), List.nil_append, List.append_assoc,
      lzo1xDecompress_literalHeader hrun, hlong hrun]
  · split_ifs with hzero hshort
    · obtain rfl := List.length_eq_zero_iff.1 hzero
      rw [h.literalRun, run_of_step (step_literalRun_match hb _ _), List.append_nil]
    · rw [List.append_assoc, h.2 _ (by omega), labelOf, if_neg hzero,
        run_of_step (step_matchNext (by rintro rfl; exact hzero rfl) _ _ _)]
    · rw [List.append_assoc, List.append_assoc, h.literalRun, hlong (by omega)]

theorem two_le_length_matchBytes (mLen mOff : ℕ) : 2 ≤ (matchBytes mLen mOff).length := by
  unfold matchBytes
  dsimp only
  split_ifs <;> simp

/-- Literals and a match are read back. -/
theorem MayStart.match {out op run : List Byte} (h : MayStart out op)
    (hfirst : out = [] → 4 ≤ run.length) {mLen mOff : ℕ} (hlen : 4 ≤ mLen) (hpos : 0 < mOff)
    (hle : mOff ≤ 0xbfff) (hoff : mOff ≤ (op ++ run).length) :
    Arrives (literalBytes run out ++ matchBytes mLen mOff) (copyBack mOff mLen (op ++ run)) := by
  refine ⟨?_, fun s hs rest => ?_⟩
  · have := two_le_length_matchBytes mLen mOff
    rw [List.length_append]
    omega
  · obtain ⟨b, code, hcode⟩ := step_match hlen hpos hle hs
    rw [orLow_append_right _ _ (two_le_length_matchBytes _ _), hcode.code_eq, List.append_assoc,
      List.cons_append, run_literals h hfirst hcode.le, run_of_step (hcode.step_eq _ _ hoff)]

/-! ## Matches are matches -/

theorem getLe32_inj {src : List Byte} {p q : ℕ} (hp : p + 4 ≤ src.length) (hq : q + 4 ≤ src.length)
    (h : getLe32 src p = getLe32 src q) {k : ℕ} (hk : k < 4) : src[p + k]? = src[q + k]? := by
  have hlen {i : ℕ} (hi : i + 4 ≤ src.length) : ((src.drop i).take 4).length = 4 := by
    rw [List.length_take, List.length_drop]
    omega
  have hbytes : (src.drop p).take 4 = (src.drop q).take 4 := by
    rw [← wordBytes_wordOfBytes (hlen hp), ← wordBytes_wordOfBytes (hlen hq)]
    exact congrArg wordBytes h
  have hk' := congrArg (fun l => l[k]?) hbytes
  simpa only [List.getElem?_take_of_lt hk, List.getElem?_drop] using hk'

/-- What `findMatch` finds: four bytes that stand in the chunk before, too. -/
structure IsMatch (src : List Byte) (inp ip mPos : ℕ) (dict : Dict) : Prop where
  inp_le : inp ≤ mPos
  lt : mPos < ip
  same : getLe32 src ip = getLe32 src mPos
  dict_le : ∀ i, (dict i).toNat ≤ ip - inp

theorem findMatch_spec {src : List Byte} {inp ipEnd ii ip ip' mPos : ℕ} {dict dict' : Dict}
    (hip : inp < ip) (hdict : ∀ i, (dict i).toNat < ip - inp) (hsize : ipEnd - inp ≤ 2 ^ 16)
    (h : findMatch src inp ipEnd ii ip dict = some (ip', mPos, dict')) :
    IsMatch src inp ip' mPos dict' := by
  have hupdate {dict : Dict} {ip : ℕ} (hend : ¬ ipEnd ≤ ip) (hdict : ∀ i, (dict i).toNat < ip - inp)
      (dv : BitVec 32) (i : BitVec 14) :
      (Function.update dict (dindex dv) (BitVec.ofNat 16 (ip - inp)) i).toNat ≤ ip - inp := by
    by_cases hi : i = dindex dv
    · subst hi
      rw [Function.update_self, BitVec.toNat_ofNat, Nat.mod_eq_of_lt (by omega)]
    · rw [Function.update_of_ne hi]
      exact Nat.le_of_lt (hdict i)
  induction ip, dict using findMatch.induct src inp ipEnd ii with
  | case1 ip dict hend =>
    rw [findMatch, if_pos hend] at h
    cases h
  | case2 ip dict hend dv mPos dict₁ hne ih =>
    rw [findMatch, if_neg hend] at h
    refine ih (by omega) (fun i => ?_) ((if_pos hne).symm.trans h)
    exact lt_of_le_of_lt (hupdate hend hdict dv i) (by omega)
  | case3 ip dict hend dv mPos heq =>
    rw [findMatch, if_neg hend] at h
    cases (if_neg heq).symm.trans h
    have hlt := hdict (dindex (getLe32 src ip'))
    exact ⟨Nat.le_add_right _ _, by omega, not_not.1 heq, hupdate hend hdict dv⟩

theorem getElem?_of_take_drop {src : List Byte} {p q n k : ℕ}
    (h : ((src.drop p).take n)[k]? = ((src.drop q).take n)[k]?) (hk : k < n) :
    src[p + k]? = src[q + k]? := by
  simpa only [List.getElem?_take_of_lt hk, List.getElem?_drop] using h

/-- A match grows by what comes behind it. -/
theorem same_append {src : List Byte} {ip mPos mLen n : ℕ}
    (h : ∀ k < mLen, src[ip + k]? = src[mPos + k]?)
    (hn : ∀ j < n, src[ip + mLen + j]? = src[mPos + mLen + j]?) :
    ∀ k < mLen + n, src[ip + k]? = src[mPos + k]? := by
  intro k hk
  rcases Nat.lt_or_ge k mLen with hlt | hge
  · exact h k hlt
  · have := hn (k - mLen) (by omega)
    rwa [Nat.add_assoc, Nat.add_assoc, Nat.add_sub_cancel' hge] at this

/-- The length of a match is the length of a match, and inside the chunk. -/
theorem matchLength_spec {src : List Byte} {ipEnd ip mPos mLen : ℕ}
    (h : ∀ k < mLen, src[ip + k]? = src[mPos + k]?) (hle : ip + mLen ≤ ipEnd + 4) :
    (∀ k < matchLength src ipEnd ip mPos mLen, src[ip + k]? = src[mPos + k]?) ∧
      ip + matchLength src ipEnd ip mPos mLen ≤ ipEnd + 12 := by
  induction mLen using matchLength.induct src ipEnd ip mPos with
  | case1 mLen a b hab hend =>
    rw [matchLength, if_pos hab, if_pos hend]
    exact ⟨same_append h fun j hj =>
      getElem?_of_take_drop (congrArg (fun l => l[j]?) hab) hj, by omega⟩
  | case2 mLen a b hab hend ih =>
    rw [matchLength, if_pos hab, if_neg hend]
    exact ih (same_append h fun j hj =>
      getElem?_of_take_drop (congrArg (fun l => l[j]?) hab) hj) (by omega)
  | case3 mLen a b hab =>
    have hcount : commonPrefix a b ≤ 8 := (commonPrefix_le a b).trans (List.length_take_le _ _)
    have hlen : matchLength src ipEnd ip mPos mLen = mLen + commonPrefix a b := by
      rw [matchLength, if_neg hab]
    rw [hlen]
    exact ⟨same_append h fun j hj =>
      getElem?_of_take_drop (getElem?_of_lt_commonPrefix hj) (by omega), by omega⟩

/-! ## How much is written -/

theorem length_matchBytes {mLen : ℕ} (h : 4 ≤ mLen) (mOff : ℕ) :
    (matchBytes mLen mOff).length + 1 ≤ mLen := by
  unfold matchBytes
  dsimp only
  split_ifs
  · simp only [List.length_cons, List.length_nil]
    omega
  · simp only [List.length_append, List.length_cons, List.length_nil]
    omega
  · simp only [List.length_append, List.length_cons, List.length_nil,
      length_lengthBytes (by omega : 0 < mLen - 33)]
    omega
  · simp only [List.length_append, List.length_cons, List.length_nil]
    omega
  · simp only [List.length_append, List.length_cons, List.length_nil,
      length_lengthBytes (by omega : 0 < mLen - 9)]
    omega

/-- One byte, and one for every sixteen literals. -/
theorem length_literalHeader {t : ℕ} (h : 4 ≤ t) : 16 * (literalHeader t).length ≤ t + 16 := by
  unfold literalHeader
  split_ifs
  · simp only [List.length_cons, List.length_nil]
    omega
  · rw [List.length_cons, length_lengthBytes (by omega)]
    omega

theorem length_orLow (s : ℕ) (l : List Byte) : (orLow s l).length = l.length :=
  List.length_modify ..

theorem length_literalBytes (run out : List Byte) :
    16 * (literalBytes run out).length ≤ 16 * out.length + 17 * run.length + 16 := by
  unfold literalBytes
  split_ifs
  · omega
  · rw [List.length_append, length_orLow]
    omega
  · have := length_literalHeader (t := run.length) (by omega)
    simp only [List.length_append]
    omega

theorem putLiterals_eq {src : List Byte} {ii t : ℕ} (h : ii + t ≤ src.length) (o : Output) :
    (putLiterals src ii t o).bytes = literalBytes ((src.drop ii).take t) o.bytes ∧
      (putLiterals src ii t o).high ≤
        max o.high ((literalBytes ((src.drop ii).take t) o.bytes).length + 16) := by
  have hlen : ((src.drop ii).take t).length = t := by
    rw [List.length_take, List.length_drop]
    omega
  unfold putLiterals literalBytes literalHeader
  simp only [hlen]
  split_ifs
  · exact ⟨rfl, le_max_left _ _⟩
  · refine ⟨rfl, ?_⟩
    simp only [Output.store, Output.orLow, List.length_append, hlen]
    omega
  · refine ⟨rfl, ?_⟩
    simp only [Output.put, Output.store, List.length_append, hlen, List.length_singleton]
    omega
  · omega
  · refine ⟨rfl, ?_⟩
    simp only [Output.put, Output.store, List.length_append, hlen, List.length_singleton]
    omega
  · refine ⟨rfl, ?_⟩
    simp only [Output.put, Output.store, List.length_append, hlen]
    omega

/-! ## The loops of the compressor -/

/-- What has been written is read back as the first `n` bytes of the input, and
    is not much longer than they are. -/
structure Covers (src : List Byte) (o : Output) (n : ℕ) : Prop where
  ready : MayStart o.bytes (src.take n)
  le : n ≤ src.length
  length : 16 * o.bytes.length ≤ 17 * n
  high : 16 * o.high ≤ 17 * n + 256

theorem take_append_take_drop (src : List Byte) (n t : ℕ) :
    src.take n ++ (src.drop n).take t = src.take (n + t) := by
  rw [List.take_add]

theorem Covers.match {src : List Byte} {o : Output} {n ip mPos mLen inp : ℕ} {dict : Dict}
    (h : Covers src o n) (hn : n ≤ ip) (hfirst : o.bytes = [] → n + 4 ≤ ip)
    (hmatch : IsMatch src inp ip mPos dict) (hip : ip + mLen ≤ src.length) (hlen : 4 ≤ mLen)
    (hfar : ip - inp ≤ 0xbfff) (hsame : ∀ k < mLen, src[ip + k]? = src[mPos + k]?) :
    Covers src ((putLiterals src n (ip - n) o).put (matchBytes mLen (ip - mPos))) (ip + mLen) ∧
      ((putLiterals src n (ip - n) o).put (matchBytes mLen (ip - mPos))).bytes ≠ [] := by
  obtain ⟨hbytes, hhigh⟩ := putLiterals_eq (show n + (ip - n) ≤ src.length by omega) o
  have hrun : ((src.drop n).take (ip - n)).length = ip - n := by
    rw [List.length_take, List.length_drop]
    omega
  have hop : src.take n ++ (src.drop n).take (ip - n) = src.take ip := by
    rw [take_append_take_drop, Nat.add_sub_cancel' hn]
  have hoplen : (src.take ip).length = ip := List.length_take_of_le (by omega)
  have hle := hmatch.inp_le
  have hlt := hmatch.lt
  have hcopy : copyBack (ip - mPos) mLen (src.take ip) = src.take (ip + mLen) :=
    copyBack_take (by omega) (by omega) hip fun k hk => by
      rw [hsame k hk]
      congr 1
      omega
  have hstart : o.bytes = [] → 4 ≤ ((src.drop n).take (ip - n)).length := by
    intro hnil
    have := hfirst hnil
    omega
  have hreach := h.ready.match hstart hlen (show 0 < ip - mPos by omega) (by omega)
    (by rw [hop]; omega)
  rw [hop, hcopy, ← hbytes] at hreach
  have hlit := length_literalBytes ((src.drop n).take (ip - n)) o.bytes
  have hmlen := length_matchBytes hlen (ip - mPos)
  have hlength := h.length
  have hold := h.high
  refine ⟨⟨.inr hreach, hip, ?_, ?_⟩, fun hnil => ?_⟩
  · simp only [Output.put, Output.store, List.length_append, hbytes]
    omega
  · simp only [Output.put, Output.store, hbytes]
    omega
  · have := hreach.1
    simp only [Output.put, Output.store] at hnil
    rw [hnil] at this
    simp at this

theorem covers_coreLoop {src : List Byte} {inp inLen ip ii ti : ℕ} {dict : Dict} {o : Output}
    (hshort : 20 ≤ inLen) (hlong : inLen ≤ 49152) (hsrc : inp + inLen ≤ src.length)
    (hip : inp < ip) (hdict : ∀ i, (dict i).toNat < ip - inp) (h : Covers src o (ii - ti))
    (hpend : ii - ti ≤ ip) (hfirst : o.bytes = [] → ii - ti + 4 ≤ ip)
    (hend : ii - ti ≤ inp + inLen) :
    Covers src (coreLoop src inp inLen ip ii ti dict o).1
      (inp + inLen - (coreLoop src inp inLen ip ii ti dict o).2) ∧
    (coreLoop src inp inLen ip ii ti dict o).2 ≤ inp + inLen := by
  induction ip, ii, ti, dict, o using coreLoop.induct src inp inLen with
  | case1 ip ii ti dict o hnone =>
    have hcore : coreLoop src inp inLen ip ii ti dict o = (o, inp + inLen - (ii - ti)) := by
      rw [coreLoop]
      split
      · rfl
      · rename_i hsome
        rw [hnone] at hsome
        cases hsome
    rw [hcore]
    exact ⟨by rwa [Nat.sub_sub_self hend], Nat.sub_le _ _⟩
  | case2 ip ii ti dict o ip' mPos dict' hsome o' mLen ih =>
    have hcore : coreLoop src inp inLen ip ii ti dict o =
        coreLoop src inp inLen (ip' + mLen) (ip' + mLen) 0 dict'
          (o'.put (matchBytes mLen (ip' - mPos))) := by
      rw [coreLoop]
      split
      · rename_i hnone
        rw [hnone] at hsome
        cases hsome
      · rename_i heq
        rw [hsome] at heq
        cases heq
        rfl
    rw [hcore]
    obtain ⟨hle, hlt⟩ := le_findMatch hsome
    have hmatch := findMatch_spec hip hdict (by omega) hsome
    have hpos := hmatch.lt
    have hmlen : 4 ≤ mLen := le_matchLength _ _ _ _ _
    have hfour : ∀ k < 4, src[ip' + k]? = src[mPos + k]? := fun k hk =>
      getLe32_inj (by omega) (by omega) hmatch.same hk
    obtain ⟨hsame, hin⟩ := matchLength_spec hfour
      (show ip' + 4 ≤ inp + inLen - 20 + 4 by omega)
    have hin' : ip' + mLen ≤ inp + inLen - 20 + 12 := hin
    obtain ⟨hcovers, hwritten⟩ := h.match (by omega) (fun hnil => by
      have := hfirst hnil; omega) hmatch (show ip' + mLen ≤ src.length by omega) hmlen
      (by omega) hsame
    have hdict' := hmatch.dict_le
    exact ih (by omega) (fun i => by have := hdict' i; omega) hcovers (by omega)
      (fun hnil => absurd hnil hwritten) (by omega)

theorem covers_doCompress {src : List Byte} {inp inLen ti : ℕ} {o : Output} (hshort : 20 ≤ inLen)
    (hlong : inLen ≤ 49152) (hsrc : inp + inLen ≤ src.length) (h : Covers src o (inp - ti))
    (hti : ti ≤ inp) :
    Covers src (doCompress src inp inLen ti o).1
      (inp + inLen - (doCompress src inp inLen ti o).2) ∧
    (doCompress src inp inLen ti o).2 ≤ inp + inLen := by
  unfold doCompress
  -- four literals and more stand before the first match
  refine covers_coreLoop hshort hlong hsrc ?_ (fun i => ?_) h ?_ (fun _ => ?_) (by omega)
  · omega
  · rw [show (0 : BitVec 16).toNat = 0 from rfl]
    omega
  · omega
  · split <;> omega

theorem covers_compressChunks {src : List Byte} {ip l t : ℕ} {o : Output}
    (hl : ip + l = src.length) (ht : t ≤ ip) (h : Covers src o (ip - t)) :
    Covers src (compressChunks src ip l t o).1 (src.length - (compressChunks src ip l t o).2) ∧
      (compressChunks src ip l t o).2 ≤ src.length := by
  induction ip, l, t, o using compressChunks.induct src with
  | case1 ip l t o hlong ll hshift =>
    rw [compressChunks, if_pos hlong, if_pos hshift]
    exact ⟨by rwa [← hl, show ip + l - (t + l) = ip - t by omega], by omega⟩
  | case2 ip l t o hlong ll hshift o' t' heq ih =>
    rw [compressChunks, if_pos hlong, if_neg hshift]
    obtain ⟨hcovers, hle⟩ := covers_doCompress (show 20 ≤ ll by omega) (Nat.min_le_right _ _)
      (by omega) h ht
    have hcall : doCompress src ip (min l 49152) t o = (o', t') := heq
    rw [heq] at hcovers hle
    simp only [hcall]
    exact ih (by omega) hle hcovers
  | case3 ip l t o hshort =>
    rw [compressChunks, if_neg hshort]
    exact ⟨by rwa [← hl, show ip + l - (t + l) = ip - t by omega], by omega⟩

/-! ## The round trip -/

/-- The last three bytes end the decompressor. -/
theorem run_eof (op : List Byte) : Decompressor.run ⟨.match 17, [0, 0], op⟩ = .ok op := by
  have hstep : Decompressor.step ⟨.match 17, [0, 0], op⟩ = .inl (.ok op) := by
    have hread : readLength (17 &&& 7) 7 [0, 0] = some (1, (0 : Byte) :: (0 : Byte) :: []) := rfl
    rw [step_match_m4 (by decide) (by decide) hread]
    rfl
  rw [Decompressor.run]
  split
  · rename_i status hstatus
    rw [hstep] at hstatus
    exact (Sum.inl.inj hstatus).symm
  · rename_i next hnext
    rw [hstep] at hnext
    cases hnext

/-- A stream of at most 238 literals. -/
theorem lzo1xDecompress_literals {src : List Byte} (hpos : src ≠ []) (h : src.length ≤ 238) :
    lzo1xDecompress (lzoByte (17 + src.length) :: (src ++ [17, 0, 0])) = .ok src := by
  have hlen : 0 < src.length := List.length_pos_iff.2 hpos
  unfold lzo1xDecompress
  simp only [toNat_lzoByte (by omega : 17 + src.length < 256)]
  rw [if_pos (by omega)]
  simp only [Nat.add_sub_cancel_left]
  split
  · rw [run_of_step (step_matchNext hpos 17 [0, 0] [])]
    exact run_eof src
  · rw [copyLiterals_eq]
    show Decompressor.run ⟨.firstLiteralRun, [17, 0, 0], src⟩ = _
    rw [run_of_step (step_firstLiteralRun (by decide) _ _)]
    exact run_eof src

theorem putLast_eq {src : List Byte} {t : ℕ} (h : t ≤ src.length) (o : Output)
    (hshort : ¬ (o.bytes = [] ∧ t ≤ 238)) :
    (putLast src t o).bytes = literalBytes (src.drop (src.length - t)) o.bytes ∧
      (putLast src t o).high ≤
        max o.high (literalBytes (src.drop (src.length - t)) o.bytes).length := by
  have hlen : (src.drop (src.length - t)).length = t := by
    rw [List.length_drop]
    omega
  unfold putLast literalBytes literalHeader
  simp only [hlen]
  split_ifs
  · exact ⟨rfl, le_max_left _ _⟩
  · refine ⟨rfl, ?_⟩
    simp only [Output.put, Output.store, Output.orLow, List.length_append, hlen, length_orLow]
    exact le_refl _
  · refine ⟨rfl, ?_⟩
    simp only [Output.put, Output.store, List.length_append, hlen, List.length_singleton]
    omega
  · refine ⟨rfl, ?_⟩
    simp only [Output.put, Output.store, List.length_append, hlen]
    omega

/-- The end of the compressor, behind the chunks. -/
def finish (src : List Byte) (o : Output) (t : ℕ) : Output := (putLast src t o).put [17, 0, 0]

theorem covers_nothing (src : List Byte) : Covers src ⟨[], 0⟩ 0 where
  ready := .inl ⟨rfl, rfl⟩
  le := Nat.zero_le _
  length := by simp
  high := by simp

/-- Nothing but literals, and not many of them. -/
theorem finish_short {src : List Byte} {o : Output} {t : ℕ} (h : Covers src o (src.length - t))
    (ht : t ≤ src.length) (hnil : o.bytes = []) (hshort : t ≤ 238) :
    lzo1xDecompress (finish src o t).bytes = .ok src ∧
      (finish src o t).high ≤ src.length + src.length / 16 + 67 := by
  have hhigh := h.high
  have hall : src.take (src.length - t) = [] := by
    obtain ⟨-, hop⟩ | hreach := h.ready
    · exact hop
    · have := hreach.1
      rw [hnil] at this
      simp at this
  have htaken : min (src.length - t) src.length = 0 := by
    rw [← List.length_take, hall, List.length_nil]
  obtain rfl : t = src.length := by omega
  unfold finish
  by_cases hzero : src.length = 0
  · obtain rfl := List.length_eq_zero_iff.1 hzero
    have hput : putLast [] 0 o = o := by
      unfold putLast
      exact if_pos rfl
    refine ⟨?_, ?_⟩
    · simp only [List.length_nil, hput, Output.put, Output.store, hnil, List.nil_append]
      rw [lzo1xDecompress_of_le (by decide), run_of_step (step_literalRun_match (by decide) _ _)]
      exact run_eof []
    · simp only [List.length_nil, hput, Output.put, Output.store, hnil, List.length_cons]
      omega
  · have hput : putLast src src.length o = (o.put [lzoByte (17 + src.length)]).put src := by
      simp only [putLast]
      rw [if_neg hzero, if_pos ⟨hnil, hshort⟩, Nat.sub_self, List.drop_zero]
    refine ⟨?_, ?_⟩
    · have hpos : src ≠ [] := by
        rintro rfl
        exact hzero rfl
      simp only [hput, Output.put, Output.store, hnil, List.nil_append, List.cons_append]
      exact lzo1xDecompress_literals hpos hshort
    · simp only [hput, Output.put, Output.store, hnil, List.length_append, List.length_nil,
        List.length_cons]
      omega

theorem finish_long {src : List Byte} {o : Output} {t : ℕ} (h : Covers src o (src.length - t))
    (ht : t ≤ src.length) (hlong : ¬ (o.bytes = [] ∧ t ≤ 238)) :
    lzo1xDecompress (finish src o t).bytes = .ok src ∧
      (finish src o t).high ≤ src.length + src.length / 16 + 67 := by
  obtain ⟨hbytes, hhigh⟩ := putLast_eq ht o hlong
  have hlen : (src.drop (src.length - t)).length = t := by
    rw [List.length_drop]
    omega
  refine ⟨?_, ?_⟩
  · simp only [finish, Output.put, Output.store, hbytes]
    rw [run_literals h.ready (fun hnil => by
      have : ¬ t ≤ 238 := fun hle => hlong ⟨hnil, hle⟩
      omega) (by decide) [0, 0], List.take_append_drop]
    exact run_eof src
  · have hlit := length_literalBytes (src.drop (src.length - t)) o.bytes
    have hlength := h.length
    have hold := h.high
    simp only [finish, Output.put, Output.store, hbytes, List.length_cons, List.length_nil]
    omega

theorem finish_spec {src : List Byte} {o : Output} {t : ℕ} (h : Covers src o (src.length - t))
    (ht : t ≤ src.length) :
    lzo1xDecompress (finish src o t).bytes = .ok src ∧
      (finish src o t).high ≤ src.length + src.length / 16 + 67 := by
  by_cases hshort : o.bytes = [] ∧ t ≤ 238
  · exact finish_short h ht hshort.1 hshort.2
  · exact finish_long h ht hshort

theorem length_finish_le (src : List Byte) (o : Output) (t : ℕ) :
    (finish src o t).bytes.length ≤ (finish src o t).high := by
  simp only [finish, Output.put, Output.store, List.length_append]
  exact le_max_right _ _

/-- The compressor ends behind its chunks. -/
theorem exists_finish (src : List Byte) :
    ∃ o t, lzo1x1Compress src = finish src o t ∧ Covers src o (src.length - t) ∧ t ≤ src.length := by
  obtain ⟨hcovers, hle⟩ := covers_compressChunks (Nat.zero_add src.length) (le_refl 0)
    (covers_nothing src)
  exact ⟨_, _, rfl, hcovers, hle⟩

/-- `lzo1x_decompress` returns exactly the bytes `lzo1x_1_compress` was given,
    and compressing `n` bytes stores nothing behind the room that `lzo-wrap.cc`
    allocates for them, `n + n / 16 + 67`. -/
theorem lzo1xDecompress_lzo1x1Compress (src : List Byte) :
    lzo1xDecompress (lzo1x1Compress src).bytes = .ok src ∧
      (lzo1x1Compress src).bytes.length ≤ (lzo1x1Compress src).high ∧
      (lzo1x1Compress src).high ≤ src.length + src.length / 16 + 67 := by
  obtain ⟨o, t, heq, hcovers, ht⟩ := exists_finish src
  obtain ⟨hdec, hhigh⟩ := finish_spec hcovers ht
  rw [heq]
  exact ⟨hdec, length_finish_le src o t, hhigh⟩

/-- The library behind `lzo-wrap.cc`. -/
def Lzo.minilzo : Lzo where
  compress src := some (lzo1x1Compress src).bytes
  decompress := lzo1xDecompress
  exists_compress src := by
    obtain ⟨o, t, heq, hcovers, ht⟩ := exists_finish src
    obtain ⟨hdec, hhigh⟩ := finish_spec hcovers ht
    exact ⟨_, rfl, heq ▸ (length_finish_le src o t).trans hhigh, heq ▸ hdec⟩

end BambooShoot.Pbsf
