import BambooShoot.Lib.BackReference
import BambooShoot.Lib.Radix
import BambooShoot.Pbsf.Compression

/-!
# The LZO library

Model of the two functions of `deps/lzo/minilzo.c` that `lzo-wrap.cc` calls,
`lzo1x_1_compress` and `lzo1x_decompress`, as they are built for a 64-bit
little-endian machine with unaligned access. Positions are offsets into the
input; a pointer into the output is the length of what stands before it.

The compressor's copies of whole words run past the bytes they are for:
`Output.high` is how far anything has been stored. The decompressor tests no
bound, so a read outside of its buffers ends it as `LzoStatus.overrun`.
-/

namespace BambooShoot.Pbsf

open BambooShoot.Lib BambooShoot.Pbss

/-- `LZO_BYTE(x)`. -/
def lzoByte (x : ℕ) : Byte := BitVec.ofNat 8 x

/-! ## Writing -/

/-- The output up to `op`, and how far anything has been stored. -/
structure Output where
  bytes : List Byte
  high : ℕ

/-- `n` bytes are stored at `op`, which then moves behind the first ones, `bs`. -/
def Output.store (o : Output) (bs : List Byte) (n : ℕ) : Output :=
  ⟨o.bytes ++ bs, max o.high (o.bytes.length + n)⟩

/-- `*op++ = b` for every byte of `bs`. -/
def Output.put (o : Output) (bs : List Byte) : Output := o.store bs bs.length

/-- `op[-2] |= t`. -/
def orLow (t : ℕ) (bytes : List Byte) : List Byte :=
  bytes.modify (bytes.length - 2) (· ||| lzoByte t)

def Output.orLow (o : Output) (t : ℕ) : Output := { o with bytes := Pbsf.orLow t o.bytes }

/-- A length that did not fit: a zero for every 255, and what is left. -/
def lengthBytes (n : ℕ) : List Byte :=
  if 255 < n then 0 :: lengthBytes (n - 255) else [lzoByte n]

/-- The literals before a match (lines 4873–4914): `t` bytes from `ii` on. -/
def putLiterals (src : List Byte) (ii t : ℕ) (o : Output) : Output :=
  let run := (src.drop ii).take t
  if t = 0 then o
  else if t ≤ 3 then (o.orLow t).store run 4
  else if t ≤ 16 then (o.put [lzoByte (t - 3)]).store run 16
  else if t ≤ 18 then (o.put [lzoByte (t - 3)]).put run
  else (o.put (0 :: lengthBytes (t - 18))).put run

/-- The code of a match (lines 5019–5068). -/
def matchBytes (mLen mOff : ℕ) : List Byte :=
  if mLen ≤ 8 ∧ mOff ≤ 0x0800 then
    let mOff := mOff - 1
    [lzoByte (((mLen - 1) <<< 5) ||| ((mOff &&& 7) <<< 2)), lzoByte (mOff >>> 3)]
  else if mOff ≤ 0x4000 then
    let mOff := mOff - 1
    (if mLen ≤ 33 then [lzoByte (32 ||| (mLen - 2))]
      else lzoByte (32 ||| 0) :: lengthBytes (mLen - 33)) ++
      [lzoByte (mOff <<< 2), lzoByte (mOff >>> 6)]
  else
    let mOff := mOff - 0x4000
    (if mLen ≤ 9 then [lzoByte (16 ||| ((mOff >>> 11) &&& 8) ||| (mLen - 2))]
      else lzoByte (16 ||| ((mOff >>> 11) &&& 8)) :: lengthBytes (mLen - 9)) ++
      [lzoByte (mOff <<< 2), lzoByte (mOff >>> 6)]

/-! ## `do_compress` -/

/-- `wrkmem`: where in the chunk four bytes of each hash were last seen. -/
abbrev Dict := BitVec 14 → BitVec 16

/-- `UA_GET_LE32(p)`. -/
def getLe32 (src : List Byte) (p : ℕ) : BitVec 32 := wordOfBytes 4 ((src.drop p).take 4)

/-- `DINDEX(dv, ip)`. -/
def dindex (dv : BitVec 32) : BitVec 14 := (0x1824429d#32 * dv >>> (32 - 14)).setWidth 14

/-- The search for a match, from `next:` on (lines 4850–4865): where `ip` and
    `m_pos` stand when one is found. `inp` is `in`, `ipEnd` is `ip_end`. -/
def findMatch (src : List Byte) (inp ipEnd ii ip : ℕ) (dict : Dict) : Option (ℕ × ℕ × Dict) :=
  if ipEnd ≤ ip then none
  else
    let dv := getLe32 src ip
    let mPos := inp + (dict (dindex dv)).toNat
    let dict := Function.update dict (dindex dv) (BitVec.ofNat 16 (ip - inp))
    if dv ≠ getLe32 src mPos then
      -- `literal:`
      findMatch src inp ipEnd ii (ip + 1 + (ip - ii) / 32) dict
    else some (ip, mPos, dict)
termination_by ipEnd - ip

/-- How long the match is (lines 4917–4947): eight bytes at a time from `m_len`
    on, until some differ or `ip_end` is passed. -/
def matchLength (src : List Byte) (ipEnd ip mPos mLen : ℕ) : ℕ :=
  let a := (src.drop (ip + mLen)).take 8
  let b := (src.drop (mPos + mLen)).take 8
  if a = b then
    if ipEnd ≤ ip + (mLen + 8) then mLen + 8
    else matchLength src ipEnd ip mPos (mLen + 8)
  else mLen + commonPrefix a b
termination_by ipEnd - (ip + mLen)

theorem le_findMatch {src : List Byte} {inp ipEnd ii ip ip' mPos : ℕ} {dict dict' : Dict}
    (h : findMatch src inp ipEnd ii ip dict = some (ip', mPos, dict')) : ip ≤ ip' ∧ ip' < ipEnd := by
  induction ip, dict using findMatch.induct src inp ipEnd ii with
  | case1 ip dict hend =>
    rw [findMatch, if_pos hend] at h
    cases h
  | case2 ip dict hend dv mPos dict₁ hne ih =>
    rw [findMatch, if_neg hend] at h
    have := ih ((if_pos hne).symm.trans h)
    omega
  | case3 ip dict hend dv mPos heq =>
    rw [findMatch, if_neg hend] at h
    cases (if_neg heq).symm.trans h
    omega

theorem le_matchLength (src : List Byte) (ipEnd ip mPos mLen : ℕ) :
    mLen ≤ matchLength src ipEnd ip mPos mLen := by
  induction mLen using matchLength.induct src ipEnd ip mPos with
  | case1 mLen a b hab hend =>
    rw [matchLength, if_pos hab, if_pos hend]
    omega
  | case2 mLen a b hab hend ih =>
    rw [matchLength, if_pos hab, if_neg hend]
    omega
  | case3 mLen a b hab =>
    rw [matchLength, if_neg hab]
    omega

/-- The matches of a chunk, from `next:` on. `ii - ti` is where the literals
    that are not written yet begin; what is left of them at the end is the result. -/
def coreLoop (src : List Byte) (inp inLen : ℕ) (ip ii ti : ℕ) (dict : Dict) (o : Output) :
    Output × ℕ :=
  match _h : findMatch src inp (inp + inLen - 20) ii ip dict with
  | none => (o, inp + inLen - (ii - ti))
  | some (ip', mPos, dict') =>
    let o := putLiterals src (ii - ti) (ip' - (ii - ti)) o
    let mLen := matchLength src (inp + inLen - 20) ip' mPos 4
    coreLoop src inp inLen (ip' + mLen) (ip' + mLen) 0 dict' (o.put (matchBytes mLen (ip' - mPos)))
termination_by inp + inLen - ip
decreasing_by
  have := le_findMatch _h
  have := le_matchLength src (inp + inLen - 20) ip' mPos 4
  omega

/-- `do_compress` (lines 4790–5073), with the memory of `wrkmem` zeroed: the
    `ti` bytes before the chunk are literals that are not written yet. -/
def doCompress (src : List Byte) (inp inLen ti : ℕ) (o : Output) : Output × ℕ :=
  let ip := inp + if ti < 4 then 4 - ti else 0
  coreLoop src inp inLen (ip + 1 + (ip - inp) / 32) inp ti (fun _ => 0) o

/-! ## `lzo1x_1_compress` -/

/-- The chunks (lines 5087–5104): `l` bytes are left, and `t` are literals that
    are not written yet. The address of the input does not come near its limit,
    so that only the shift can be zero in the test. -/
def compressChunks (src : List Byte) (ip l t : ℕ) (o : Output) : Output × ℕ :=
  if 20 < l then
    let ll := min l 49152
    if (t + ll) / 32 = 0 then (o, t + l)
    else
      let (o, t) := doCompress src ip ll t o
      compressChunks src (ip + ll) (l - ll) t o
  else (o, t + l)
termination_by l
decreasing_by omega

/-- The last literals (lines 5107–5131). -/
def putLast (src : List Byte) (t : ℕ) (o : Output) : Output :=
  let run := src.drop (src.length - t)
  if t = 0 then o
  else if o.bytes = [] ∧ t ≤ 238 then (o.put [lzoByte (17 + t)]).put run
  else if t ≤ 3 then (o.orLow t).put run
  else if t ≤ 18 then (o.put [lzoByte (t - 3)]).put run
  else (o.put (0 :: lengthBytes (t - 18))).put run

/-- `lzo1x_1_compress(in, in_len, out, &out_len, wrkmem)` (lines 5077–5141). -/
def lzo1x1Compress (src : List Byte) : Output :=
  let (o, t) := compressChunks src 0 src.length 0 ⟨[], 0⟩
  (putLast src t o).put [lzoByte (16 ||| 1), 0, 0]

/-! ## `lzo1x_decompress` -/

/-- The labels of the decompressor, with `t` where it is still needed. -/
inductive Label where
  /-- The beginning of the outer loop. -/
  | literalRun
  | firstLiteralRun
  | «match» (t : ℕ)
  | matchNext (t : ℕ)

/-- The decompressor: what is left of the input, and the output. -/
structure Decompressor where
  label : Label
  ip : List Byte
  op : List Byte

/-- The bytes of a length that did not fit: `while (*ip == 0)` and what follows. -/
def readZeros : (t : ℕ) → List Byte → Option (ℕ × List Byte)
  | _, [] => none
  | t, b :: ip => if b = 0 then readZeros (t + 255) ip else some (t + b.toNat, ip)

/-- A length with `base` added where it did not fit. -/
def readLength (t base : ℕ) (ip : List Byte) : Option (ℕ × List Byte) :=
  if t = 0 then readZeros base ip else some (t, ip)

/-- `do *op++ = *ip++; while (--t > 0)`. -/
def copyLiterals (label : Label) (t : ℕ) (ip op : List Byte) : LzoStatus ⊕ Decompressor :=
  if t ≤ ip.length then .inr ⟨label, ip.drop t, op ++ ip.take t⟩ else .inl .overrun

/-- `copy_match` and `match_done`: `low` is `ip[-2]`. -/
def copyMatch (mOff mLen low : ℕ) (ip op : List Byte) : LzoStatus ⊕ Decompressor :=
  if mOff ≤ op.length then
    let op := copyBack mOff mLen op
    .inr ⟨if low &&& 3 = 0 then .literalRun else .matchNext (low &&& 3), ip, op⟩
  else .inl .overrun

/-- `eof_found`. -/
def eofFound (ip op : List Byte) : LzoStatus := if ip = [] then .ok op else .error op.length

/-- From one label to the next (lines 5321–5669). -/
def Decompressor.step (d : Decompressor) : LzoStatus ⊕ Decompressor :=
  match d.label, d.ip with
  | _, [] => .inl .overrun
  | .literalRun, t :: ip =>
    if 16 ≤ t.toNat then .inr ⟨.match t.toNat, ip, d.op⟩
    else
      match readLength t.toNat 15 ip with
      | none => .inl .overrun
      | some (t, ip) => copyLiterals .firstLiteralRun (t + 3) ip d.op
  | .firstLiteralRun, t :: ip =>
    if 16 ≤ t.toNat then .inr ⟨.match t.toNat, ip, d.op⟩
    else
      match ip with
      | [] => .inl .overrun
      | b :: ip =>
        copyMatch (1 + 0x0800 + (t.toNat >>> 2) + (b.toNat <<< 2)) 3 t.toNat ip d.op
  | .matchNext t, b :: ip =>
    match (b :: ip).drop t with
    | [] => .inl .overrun
    | t' :: ip' => .inr ⟨.match t'.toNat, ip', d.op ++ (b :: ip).take t⟩
  | .match t, b :: ip =>
    if 64 ≤ t then
      copyMatch (1 + ((t >>> 2) &&& 7) + (b.toNat <<< 3)) ((t >>> 5) - 1 + 2) t ip d.op
    else if 32 ≤ t then
      match readLength (t &&& 31) 31 (b :: ip) with
      | some (t, b₀ :: b₁ :: ip) =>
        copyMatch (1 + (b₀.toNat >>> 2) + (b₁.toNat <<< 6)) (t + 2) b₀.toNat ip d.op
      | _ => .inl .overrun
    else if 16 ≤ t then
      match readLength (t &&& 7) 7 (b :: ip) with
      | some (t', b₀ :: b₁ :: ip) =>
        let mOff := ((t &&& 8) <<< 11) + (b₀.toNat >>> 2) + (b₁.toNat <<< 6)
        if mOff = 0 then .inl (eofFound ip d.op)
        else copyMatch (mOff + 0x4000) (t' + 2) b₀.toNat ip d.op
      | _ => .inl .overrun
    else copyMatch (1 + (t >>> 2) + (b.toNat <<< 2)) 2 t ip d.op

/-! Every step reads at least one byte. -/

theorem readZeros_length {t n : ℕ} {ip ip' : List Byte} (h : readZeros t ip = some (n, ip')) :
    ip'.length < ip.length := by
  induction ip generalizing t with
  | nil => cases h
  | cons b ip ih =>
    unfold readZeros at h
    split_ifs at h
    · exact Nat.lt_succ_of_lt (ih h)
    · cases h
      exact Nat.lt_succ_self _

theorem readLength_length {t base n : ℕ} {ip ip' : List Byte}
    (h : readLength t base ip = some (n, ip')) : ip'.length ≤ ip.length := by
  unfold readLength at h
  split_ifs at h
  · exact Nat.le_of_lt (readZeros_length h)
  · cases h
    exact le_refl _

theorem copyLiterals_length {label : Label} {t : ℕ} {ip op : List Byte} {d : Decompressor}
    (h : copyLiterals label t ip op = .inr d) : d.ip.length ≤ ip.length := by
  unfold copyLiterals at h
  split_ifs at h
  cases h
  rw [List.length_drop]
  exact Nat.sub_le _ _

theorem copyMatch_length {mOff mLen low : ℕ} {ip op : List Byte} {d : Decompressor}
    (h : copyMatch mOff mLen low ip op = .inr d) : d.ip.length ≤ ip.length := by
  unfold copyMatch at h
  split_ifs at h <;> cases h <;> exact le_refl _

theorem Decompressor.step_length {d d' : Decompressor} (h : d.step = .inr d') :
    d'.ip.length < d.ip.length := by
  obtain ⟨label, ip, op⟩ := d
  cases ip with
  | nil => cases label <;> cases h
  | cons b ip =>
    cases label with
    | literalRun =>
      simp only [Decompressor.step] at h
      split_ifs at h
      · cases h
        exact Nat.lt_succ_self _
      · split at h
        · cases h
        · rename_i t rest hread
          have := readLength_length hread
          have := copyLiterals_length h
          simp only [List.length_cons]
          omega
    | firstLiteralRun =>
      simp only [Decompressor.step] at h
      split_ifs at h
      · cases h
        exact Nat.lt_succ_self _
      · split at h
        · cases h
        · have := copyMatch_length h
          simp only [List.length_cons]
          omega
    | matchNext t =>
      simp only [Decompressor.step] at h
      split at h
      · cases h
      · rename_i t' rest hdrop
        cases h
        have := congrArg List.length hdrop
        simp only [List.length_drop, List.length_cons] at this ⊢
        omega
    | «match» t =>
      simp only [Decompressor.step] at h
      split_ifs at h
      · have := copyMatch_length h
        simp only [List.length_cons]
        omega
      · split at h
        · rename_i hread
          have := readLength_length hread
          have := copyMatch_length h
          simp only [List.length_cons] at *
          omega
        · cases h
      · split at h
        · rename_i hread
          split_ifs at h
          have := readLength_length hread
          have := copyMatch_length h
          simp only [List.length_cons] at *
          omega
        · cases h
      · have := copyMatch_length h
        simp only [List.length_cons]
        omega

/-- The loops of the decompressor. -/
def Decompressor.run (d : Decompressor) : LzoStatus :=
  match _h : d.step with
  | .inl status => status
  | .inr d' => d'.run
termination_by d.ip.length
decreasing_by exact Decompressor.step_length _h

/-- `lzo1x_decompress(in, in_len, out, &out_len, 0)` (lines 5260–5686). -/
def lzo1xDecompress (src : List Byte) : LzoStatus :=
  match src with
  | [] => .overrun
  | b :: ip =>
    if 17 < b.toNat then
      let t := b.toNat - 17
      if t < 4 then Decompressor.run ⟨.matchNext t, ip, []⟩
      else
        match copyLiterals .firstLiteralRun t ip [] with
        | .inl status => status
        | .inr d => d.run
    else Decompressor.run ⟨.literalRun, src, []⟩

end BambooShoot.Pbsf
