import KvStore.Rdb.Format

/-! What `kvs_rdb_save` leaves in the file. With the checksum on it reads its own write-only
stream, which gives no byte, so that it goes on only when the size field of the header is 0; and
what a failed save leaves never passes the check, since no list of records ends like a footer. -/
namespace KvStore
open Endian

variable {cfg : RdbConfig} {io : SaveIO} {rs array others : List RdbRecord} {e : Engines}

/-- A write at the end of the stream. -/
theorem Stream.fwrite_end (c bs : List UInt8) :
    Stream.fwrite ⟨c, c.length⟩ bs = ⟨c ++ bs, (c ++ bs).length⟩ := by
  simp [Stream.fwrite]

theorem Stream.foldl_fwrite (c : List UInt8) (rs : List RdbRecord) :
    rs.foldl (fun (fp : Stream) r => fp.fwrite r.bytes) ⟨c, c.length⟩ =
      ⟨c ++ rs.flatMap RdbRecord.bytes, (c ++ rs.flatMap RdbRecord.bytes).length⟩ := by
  induction rs generalizing c with
  | nil => simp
  | cons r rs ih =>
    rw [List.foldl_cons, Stream.fwrite_end, ih]
    simp [List.append_assoc]

/-- A write over the first bytes of the stream. -/
theorem Stream.fwrite_start {b c : List UInt8} (h : c.length = b.length) (d : List UInt8)
    (pos : ℕ) : ((Stream.fseek ⟨c ++ d, pos⟩ 0).fwrite b).content = b ++ d := by
  simp [Stream.fseek, Stream.fwrite, ← h]

theorem Stream.fwrite_middle {c : List UInt8} {n : ℕ} (hc : c.length = n) (d bs : List UInt8) :
    Stream.fwrite ⟨c ++ d, n⟩ bs = ⟨c ++ (bs ++ d.drop bs.length), n + bs.length⟩ := by
  subst hc
  simp [Stream.fwrite]

/-- The header of a save with the records `array` of the array before those of the others. -/
def savedHeader (cfg : RdbConfig) (io : SaveIO) (array others : List RdbRecord) : RdbHeader :=
  { saveHeader cfg io with
    dataSize := ((array ++ others).flatMap RdbRecord.bytes).length % 2 ^ 32
    recordCount := array.length }

section Outcome

/-! The stream behind the records: the first header, and the data. -/

theorem records_written (h : RdbHeader) (rs : List RdbRecord) :
    rs.foldl (fun (fp : Stream) r => fp.fwrite r.bytes) (Stream.fopen.fwrite h.bytes) =
      ⟨h.bytes ++ rs.flatMap RdbRecord.bytes,
        rdbHeaderBytes + (rs.flatMap RdbRecord.bytes).length⟩ := by
  have hfirst : Stream.fopen.fwrite h.bytes = ⟨h.bytes, h.bytes.length⟩ :=
    Stream.fwrite_end [] h.bytes
  rw [hfirst, Stream.foldl_fwrite, List.length_append, RdbHeader.length_bytes]

theorem saveRecords_plain (h : cfg.rdbCrc64 = false) :
    saveRecords cfg io array others =
      (0, (savedHeader cfg io array others).bytes ++ (array ++ others).flatMap RdbRecord.bytes) := by
  have hpos : (Stream.fopen.fwrite (saveHeader cfg io).bytes).pos = rdbHeaderBytes := rfl
  simp only [saveRecords, h, records_written, hpos, Bool.false_eq_true, if_false,
    Nat.add_sub_cancel_left]
  rw [Stream.fwrite_start (by simp only [RdbHeader.length_bytes])]
  rfl

/-- The checksum of the bytes that the write-only stream gave, which is that of none. -/
def emptyFooter : List UInt8 :=
  RdbFooter.bytes ⟨rdbEofMarker, (rdbCalculateCrc64 []).toNat, rdbFooterSize, 0⟩

theorem saveRecords_fails (h : cfg.rdbCrc64 = true)
    (hf : io.room = false ∨ ((array ++ others).flatMap RdbRecord.bytes).length % 2 ^ 32 ≠ 0) :
    saveRecords cfg io array others =
      (-1, (saveHeader cfg io).bytes ++ (array ++ others).flatMap RdbRecord.bytes) := by
  have hpos : (Stream.fopen.fwrite (saveHeader cfg io).bytes).pos = rdbHeaderBytes := rfl
  simp only [saveRecords, h, records_written, hpos, if_true, Nat.add_sub_cancel_left, Stream.fseek,
    Stream.fread, List.length_nil]
  obtain hroom | hsize := hf
  · simp [hroom]
  · cases io.room with
    | false => simp
    | true => simp only [Bool.not_true, Bool.false_eq_true, if_false, ne_eq, hsize.symm, not_false_eq_true, if_true]

/-- With an empty size field the footer is written over the data. -/
theorem saveRecords_passes (h : cfg.rdbCrc64 = true) (hroom : io.room = true)
    (hsize : ((array ++ others).flatMap RdbRecord.bytes).length % 2 ^ 32 = 0) :
    saveRecords cfg io array others = (0, (savedHeader cfg io array others).bytes ++
      (emptyFooter ++ ((array ++ others).flatMap RdbRecord.bytes).drop rdbFooterSize)) := by
  have hpos : (Stream.fopen.fwrite (saveHeader cfg io).bytes).pos = rdbHeaderBytes := rfl
  have hpad : rdbAlignSize rdbHeaderBytes - rdbHeaderBytes = 0 := rfl
  simp only [saveRecords, h, records_written, hpos, if_true, Nat.add_sub_cancel_left, Stream.fread,
    List.length_nil, hroom, Bool.not_true, Bool.false_eq_true, if_false, hsize, ne_eq,
    not_true_eq_false, saveFooter, Stream.fseek, hpad, lt_irrefl]
  rw [Stream.fwrite_middle (RdbHeader.length_bytes _)]
  have hstart := Stream.fwrite_start (c := (saveHeader cfg io).bytes)
    (b := (savedHeader cfg io array others).bytes) (by simp only [RdbHeader.length_bytes])
    (emptyFooter ++ ((array ++ others).flatMap RdbRecord.bytes).drop rdbFooterSize)
    (rdbHeaderBytes + rdbFooterSize)
  rw [← hstart, savedHeader, hsize]
  rfl

end Outcome

section Tail

/-! No list of records has `0, 0, 20, 0, 0` before its last five bytes, as a file with an empty
checksum has. -/

/-- A stretch without NUL lies before any NUL. -/
theorem split_nonzero {K X P Y : List UInt8} (hK : 0 ∉ K) (h : K ++ X = P ++ 0 :: Y) :
    ∃ P', X = P' ++ 0 :: Y ∧ P = K ++ P' := by
  induction K generalizing P with
  | nil => exact ⟨P, h, rfl⟩
  | cons a K ih =>
    cases P with
    | nil =>
      simp only [List.cons_append, List.nil_append, List.cons.injEq] at h
      exact absurd (by simp [h.1]) hK
    | cons b P =>
      simp only [List.cons_append, List.cons.injEq] at h
      obtain ⟨rfl, h⟩ := h
      obtain ⟨P', hX, rfl⟩ := ih (fun h0 => hK (List.mem_cons_of_mem a h0)) h
      exact ⟨P', hX, rfl⟩

/-- The bytes of a record: type, key length, key, value length, value. -/
theorem RdbRecord.bytes_eq (r : RdbRecord) : ∃ (a b c d : UInt8) (K V : List UInt8),
    r.bytes = r.type :: a :: b :: (K ++ c :: d :: V) ∧ 0 ∉ K ∧ 0 ∉ V ∧
    K.length = a.toNat + 256 * b.toNat ∧ V.length = c.toNat + 256 * d.toNat := by
  have hlen : ∀ n : ℕ, n % 2 ^ 16 = (UInt8.ofNat n).toNat + 256 * (UInt8.ofNat (n / 256)).toNat := by
    intro n
    simp only [UInt8.toNat_ofNat']
    omega
  have htake : ∀ s : CString, 0 ∉ s.bytes.take (s.length % 2 ^ 16) ∧
      (s.bytes.take (s.length % 2 ^ 16)).length = s.length % 2 ^ 16 := by
    intro s
    refine ⟨fun h0 => s.nonzero (List.mem_of_mem_take h0), ?_⟩
    rw [List.length_take]
    exact Nat.min_eq_left (Nat.mod_le _ _)
  have hbytes : ∀ n : ℕ, toBytes 2 n = [UInt8.ofNat n, UInt8.ofNat (n / 256)] := by
    intro n
    simp [toBytes, List.range_succ]
  refine ⟨_, _, _, _, _, _, ?_, (htake r.key).1, (htake r.value).1, (htake r.key).2.trans (hlen _),
    (htake r.value).2.trans (hlen _)⟩
  simp only [RdbRecord.bytes, hbytes, List.cons_append, List.nil_append]

theorem records_no_footer (hrs : ∀ r ∈ rs, r.type ≤ 2) {P S : List UInt8} (hS : S.length = 5)
    (h : rs.flatMap RdbRecord.bytes = P ++ 0 :: 0 :: 20 :: 0 :: 0 :: S) : False := by
  induction rs generalizing P with
  | nil => simp at h
  | cons r rs ih =>
    obtain ⟨a, b, c, d, K, V, hr, hK, hV, hKlen, hVlen⟩ := r.bytes_eq
    have htail : ∀ {x : UInt8} {Y : List UInt8}, rs.flatMap RdbRecord.bytes = x :: Y → x ≤ 2 := by
      intro x Y hx
      cases rs with
      | nil => simp at hx
      | cons r' rs' =>
        obtain ⟨_, _, _, _, _, _, hr', -⟩ := r'.bytes_eq
        simp only [List.flatMap_cons, hr', List.cons_append, List.cons.injEq] at hx
        rw [← hx.1]
        exact hrs r' (by simp)
    have hall := congrArg List.length h
    rw [List.flatMap_cons, hr] at h hall
    simp only [List.cons_append, List.append_assoc, List.length_cons, List.length_append, hS] at h hall
    -- where the pattern starts in the record
    match P with
    | [] =>
      simp only [List.nil_append, List.cons.injEq, List.length_nil] at h hall
      obtain ⟨-, rfl, rfl, -⟩ := h
      simp at hKlen
      omega
    | [_] =>
      simp only [List.cons_append, List.nil_append, List.cons.injEq, List.length_cons,
        List.length_nil] at h hall
      obtain ⟨-, rfl, rfl, h⟩ := h
      obtain rfl : K = [] := List.length_eq_zero_iff.mp (by simpa using hKlen)
      simp only [List.nil_append, List.cons.injEq] at h
      obtain ⟨rfl, rfl, -⟩ := h
      simp at hVlen
      omega
    | [_, _] =>
      simp only [List.cons_append, List.nil_append, List.cons.injEq, List.length_cons,
        List.length_nil] at h hall
      obtain ⟨-, -, rfl, h⟩ := h
      obtain ⟨P', h', hP⟩ := split_nonzero (P := []) hK h
      obtain ⟨rfl, rfl⟩ := List.append_eq_nil_iff.mp hP.symm
      simp only [List.nil_append, List.cons.injEq] at h'
      obtain ⟨rfl, rfl, -⟩ := h'
      simp at hVlen
      omega
    | _ :: _ :: _ :: P =>
      simp only [List.cons_append, List.cons.injEq] at h
      obtain ⟨P', h', rfl⟩ := split_nonzero hK h.2.2.2
      match P' with
      | [] =>
        simp only [List.nil_append, List.cons.injEq] at h'
        obtain ⟨rfl, rfl, h'⟩ := h'
        obtain rfl : V = [] := List.length_eq_zero_iff.mp (by simpa using hVlen)
        exact absurd (htail h') (by decide)
      | [_] =>
        simp only [List.cons_append, List.nil_append, List.cons.injEq] at h'
        obtain ⟨-, rfl, h'⟩ := h'
        obtain ⟨Q, hnext, hQ⟩ := split_nonzero (P := []) hV h'
        obtain ⟨rfl, rfl⟩ := List.append_eq_nil_iff.mp hQ.symm
        -- the next record would have a key of 20 bytes, the first of them NUL
        cases rs with
        | nil => simp at hnext
        | cons r' rs' =>
          obtain ⟨a', b', c', d', K', V', hr', hK', -, hKlen', -⟩ := r'.bytes_eq
          simp only [List.flatMap_cons, hr', List.cons_append, List.append_assoc, List.nil_append,
            List.cons.injEq] at hnext
          obtain ⟨-, rfl, rfl, hkey⟩ := hnext
          obtain ⟨Q', -, hQ'⟩ := split_nonzero (P := []) hK' hkey
          obtain ⟨rfl, -⟩ := List.append_eq_nil_iff.mp hQ'.symm
          simp at hKlen'
      | _ :: _ :: P' =>
        simp only [List.cons_append, List.cons.injEq] at h'
        obtain ⟨Q, hnext, -⟩ := split_nonzero hV h'.2.2
        exact ih (fun r' hr' => hrs r' (List.mem_cons_of_mem r hr')) hnext

/-- A file with an empty size field that ends with records does not pass the check with the
checksum on. -/
theorem rdbVerifyFileIntegrity_records (hrs : ∀ r ∈ rs, r.type ≤ 2) (hcrc : cfg.rdbCrc64 = true)
    {room : Bool} {A X : List UInt8} (hX : X <:+ rs.flatMap RdbRecord.bytes)
    (hlen : rdbFooterSize ≤ X.length) (hsize : (RdbHeader.read (A ++ X)).dataSize = 0) :
    rdbVerifyFileIntegrity cfg room (some (A ++ X)) ≠ 0 := by
  intro hzero
  rw [rdbVerifyFileIntegrity_eq_zero, hsize, List.take_zero] at hzero
  obtain ⟨-, -, -, hfoot⟩ := hzero
  obtain ⟨-, heof, hfsize, -, hsum⟩ := hfoot hcrc
  have hdrop : (A ++ X).drop ((A ++ X).length - rdbFooterSize) = X.drop (X.length - rdbFooterSize) := by
    rw [List.length_append, List.drop_append]
    have hA : A.drop (A.length + X.length - rdbFooterSize) = [] := by
      apply List.drop_eq_nil_of_le
      omega
    rw [hA, List.nil_append]
    congr 1
    omega
  rw [hdrop] at heof hfsize hsum
  have hF : (X.drop (X.length - rdbFooterSize)).length = 20 := by
    rw [List.length_drop, Nat.sub_sub_self hlen]
    rfl
  obtain ⟨P, hP⟩ : X.drop (X.length - rdbFooterSize) <:+ rs.flatMap RdbRecord.bytes :=
    (List.drop_suffix _ _).trans hX
  generalize X.drop (X.length - rdbFooterSize) = F at heof hfsize hsum hF hP
  have hzeros : (F.drop 4).take 8 = toBytes 8 0 := by
    have h := toBytes_ofBytes ((F.drop 4).take 8)
    have hcrc0 : ofBytes ((F.drop 4).take 8) = 0 := hsum.symm
    rw [hcrc0, List.length_take, List.length_drop, hF] at h
    exact h.symm
  have htwenty : (F.drop 12).take 4 = toBytes 4 20 := by
    have h := toBytes_ofBytes ((F.drop 12).take 4)
    have h20 : ofBytes ((F.drop 12).take 4) = 20 := hfsize
    rw [h20, List.length_take, List.length_drop, hF] at h
    exact h.symm
  have hsplit : F.take 4 ++ ((F.drop 4).take 8 ++ ((F.drop 12).take 4 ++ F.drop 16)) = F := by
    have h₈ := List.take_append_drop 8 (F.drop 4)
    have h₄ := List.take_append_drop 4 (F.drop 12)
    rw [List.drop_drop] at h₈ h₄
    rw [h₄, h₈, List.take_append_drop]
  have hmark : F.take 4 = [69, 79, 70, 0] := heof
  have height : toBytes 8 0 = [0, 0, 0, 0, 0, 0, 0, 0] := by decide
  have hfour : toBytes 4 20 = [20, 0, 0, 0] := by decide
  refine records_no_footer hrs (P := P ++ [69, 79, 70, 0, 0, 0, 0, 0, 0, 0]) (S := 0 :: F.drop 16) ?_ ?_
  · rw [List.length_cons, List.length_drop, hF]
  · rw [← hP, ← hsplit, hmark, hzeros, htwenty, height, hfour]
    simp

end Tail

end KvStore
