import KvStore.Rdb.Durable

/-! Checking a snapshot under another configuration than the one it was saved under. The check looks
for a footer when its own configuration has the checksum on; what the header says about the file is
not looked at. -/
namespace KvStore
open Endian

variable {cfg lcfg : RdbConfig} {io : SaveIO} {e : Engines} {fs fs' : Files} {filename : CString}
  {rs array others : List RdbRecord} {room : Bool}

section Tail

/-! A footer ends with the four bytes of its length, which is 20, and four more. Records end like this
only when the last of them is one of the array. -/

theorem not_zero_of_length {K X Y : List UInt8} (hK : 0 ∉ K) (hlen : 0 < K.length) :
    K ++ X ≠ 0 :: Y := by
  intro h
  obtain ⟨k, K, rfl⟩ := List.exists_cons_of_length_pos hlen
  rw [List.cons_append, List.cons.injEq] at h
  exact hK (by rw [h.1]; exact List.mem_cons_self)

/-- A list that ends as it is given, one element shorter than a stretch before it. -/
theorem append_singleton_cases {P K Q : List UInt8} {x : UInt8} (h : P ++ [x] = K ++ Q) :
    Q = [] ∨ ∃ Q', Q = Q' ++ [x] := by
  obtain rfl | ⟨Q', y, rfl⟩ := List.eq_nil_or_concat Q
  · exact .inl rfl
  · refine .inr ⟨Q', ?_⟩
    rw [List.concat_eq_append, ← List.append_assoc] at h
    obtain ⟨-, hy⟩ := List.append_inj' h rfl
    rw [List.concat_eq_append, hy]

/-- The length of records that begin with one of the array and are not all of the array. -/
theorem length_of_head {S : List UInt8} (hlast : ∀ r ∈ rs.getLast?, r.type ≠ 0)
    (h : rs.flatMap RdbRecord.bytes = 0 :: S) : 9 ≤ S.length := by
  cases rs with
  | nil => cases h
  | cons r rs =>
    obtain ⟨a, b, c, d, K, V, hr, -⟩ := r.bytes_eq
    cases rs with
    | nil =>
      rw [List.flatMap_cons, hr, List.cons_append, List.cons.injEq] at h
      exact absurd h.1 (hlast r rfl)
    | cons r' rs =>
      obtain ⟨a', b', c', d', K', V', hr', -⟩ := r'.bytes_eq
      have hlen := congrArg List.length h
      rw [List.flatMap_cons, List.flatMap_cons, hr, hr'] at hlen
      simp only [List.length_append, List.length_cons] at hlen
      omega

theorem records_no_length (hrs : ∀ r ∈ rs, r.type ≤ 2) (hlast : ∀ r ∈ rs.getLast?, r.type ≠ 0)
    {P S : List UInt8} (hS : S.length = 4)
    (h : rs.flatMap RdbRecord.bytes = P ++ 20 :: 0 :: 0 :: 0 :: S) : False := by
  induction rs generalizing P with
  | nil => simp at h
  | cons r rs ih =>
    obtain ⟨a, b, c, d, K, V, hr, hK, hV, hKlen, hVlen⟩ := r.bytes_eq
    have hlast' : ∀ x ∈ rs.getLast?, x.type ≠ 0 := by
      intro x hx
      apply hlast x
      cases rs with
      | nil => cases hx
      | cons y rs => exact hx
    rw [List.flatMap_cons, hr] at h
    simp only [List.cons_append, List.append_assoc] at h
    -- where the four bytes of the length start in the record
    match P with
    | [] =>
      simp only [List.nil_append, List.cons.injEq] at h
      exact absurd (h.1 ▸ hrs r List.mem_cons_self) (by decide)
    | [_] =>
      simp only [List.cons_append, List.nil_append, List.cons.injEq] at h
      obtain ⟨-, rfl, rfl, h⟩ := h
      exact not_zero_of_length hK (by rw [hKlen]; decide) h
    | [_, _] =>
      simp only [List.cons_append, List.nil_append, List.cons.injEq] at h
      obtain ⟨-, -, rfl, h⟩ := h
      exact not_zero_of_length hK (by rw [hKlen]; simp) h
    | _ :: _ :: _ :: P =>
      simp only [List.cons_append, List.cons.injEq] at h
      have hP : K ++ (c :: d :: (V ++ rs.flatMap RdbRecord.bytes)) = (P ++ [20]) ++ 0 :: 0 :: 0 :: S := by
        rw [h.2.2.2, List.append_assoc]
        rfl
      obtain ⟨Q, hQ, hPQ⟩ := split_nonzero hK hP
      obtain rfl | ⟨Q', rfl⟩ := append_singleton_cases hPQ
      · simp only [List.nil_append, List.cons.injEq] at hQ
        obtain ⟨rfl, rfl, hQ⟩ := hQ
        obtain rfl : V = [] := List.length_eq_zero_iff.mp (by simpa using hVlen)
        have hlen := length_of_head hlast' hQ
        omega
      · match Q' with
        | [] =>
          simp only [List.cons_append, List.nil_append, List.cons.injEq] at hQ
          obtain ⟨rfl, rfl, hQ⟩ := hQ
          exact not_zero_of_length hV (by rw [hVlen]; decide) hQ
        | [_] =>
          simp only [List.cons_append, List.nil_append, List.cons.injEq] at hQ
          obtain ⟨rfl, rfl, hQ⟩ := hQ
          exact not_zero_of_length hV (by rw [hVlen]; simp) hQ
        | _ :: _ :: Q' =>
          simp only [List.cons_append, List.cons.injEq] at hQ
          obtain ⟨R, hR, hQR⟩ := split_nonzero hV hQ.2.2
          obtain rfl | ⟨R', rfl⟩ := append_singleton_cases hQR
          · have hlen := length_of_head hlast' hR
            simp only [List.length_cons] at hlen
            omega
          · refine ih (fun x hx => hrs x (List.mem_cons_of_mem r hx)) hlast' (P := R') ?_
            rw [hR, List.append_assoc]
            rfl

end Tail

/-- The array gives one record for each of its slots at most. -/
theorem length_arrayRecords {t : ℕ → ArrayItem} {i n : ℕ} (h : arrayRecords t i n = some rs) :
    rs.length ≤ kvsArraySize - i := by
  induction n generalizing i rs with
  | zero =>
    cases h
    exact Nat.zero_le _
  | succ n ih =>
    rw [arrayRecords] at h
    split_ifs at h with hi
    split at h
    · have hle := ih h
      omega
    · obtain ⟨rs', hrs', rfl⟩ := Option.map_eq_some_iff.mp h
      have hle := ih hrs'
      rw [List.length_cons]
      omega
    · cases h

theorem recordBytes_le (rs : List RdbRecord) : recordBytes rs ≤ rs.length * (5 + 2 * 65535) := by
  induction rs with
  | nil => exact Nat.zero_le _
  | cons r rs ih =>
    have hkey := Nat.mod_lt r.key.length (show 0 < 2 ^ 16 by decide)
    have hvalue := Nat.mod_lt r.value.length (show 0 < 2 ^ 16 by decide)
    rw [recordBytes] at ih ⊢
    rw [List.map_cons, List.sum_cons, List.length_cons, Nat.succ_mul]
    omega

/-- The array alone does not fill the size field of the header. -/
theorem Saves.others_ne_nil (h : Saves e array others)
    (hsize : 2 ^ 32 ≤ ((array ++ others).flatMap RdbRecord.bytes).length) : others ≠ [] := by
  rintro rfl
  have hle := length_arrayRecords h.array
  rw [List.append_nil, length_flatMap_bytes] at hsize
  have hbytes := recordBytes_le array
  have hmul := Nat.mul_le_mul_right (5 + 2 * 65535) hle
  rw [kvsArraySize] at hmul
  omega

theorem Saves.last_type (h : Saves e array others) (hne : others ≠ []) :
    ∀ r ∈ (array ++ others).getLast?, r.type ≠ 0 := by
  intro r hr
  rw [List.getLast?_append_of_ne_nil _ hne] at hr
  obtain ht | ht := h.others_type r (List.mem_of_getLast? hr)
  · rw [ht]
    decide
  · rw [ht]
    decide

/-- The last eight bytes of a file that passes the check with the checksum on. -/
theorem verified_tail {file : List UInt8} (hcrc : cfg.rdbCrc64 = true)
    (hv : rdbVerifyFileIntegrity cfg room (some file) = 0) :
    ∃ A S, file = A ++ 20 :: 0 :: 0 :: 0 :: S ∧ S.length = 4 ∧
      rdbHeaderBytes + (RdbHeader.read file).dataSize + 12 ≤ A.length := by
  obtain ⟨-, -, -, hfoot⟩ := rdbVerifyFileIntegrity_eq_zero.mp hv
  obtain ⟨hlen, -, hsize, -⟩ := hfoot hcrc
  have hF : (file.drop (file.length - rdbFooterSize)).length = 20 := by
    rw [List.length_drop, Nat.sub_sub_self (by omega)]
    rfl
  have hsplit := List.take_append_drop (file.length - rdbFooterSize) file
  generalize file.drop (file.length - rdbFooterSize) = F at hsize hF hsplit
  have htwenty : (F.drop 12).take 4 = [20, 0, 0, 0] := by
    have h := toBytes_ofBytes ((F.drop 12).take 4)
    have h20 : ofBytes ((F.drop 12).take 4) = 20 := hsize
    rw [h20, List.length_take, List.length_drop, hF] at h
    exact h.symm
  have hparts : F = F.take 12 ++ 20 :: 0 :: 0 :: 0 :: F.drop 16 := by
    have h := List.take_append_drop 4 (F.drop 12)
    rw [List.drop_drop, htwenty] at h
    calc F = F.take 12 ++ F.drop 12 := (List.take_append_drop 12 F).symm
      _ = F.take 12 ++ ([20, 0, 0, 0] ++ F.drop 16) := by rw [h]
  refine ⟨file.take (file.length - rdbFooterSize) ++ F.take 12, F.drop 16, ?_, ?_, ?_⟩
  · rw [List.append_assoc, ← hparts, hsplit]
  · rw [List.length_drop, hF]
  · rw [List.length_append, List.length_take, List.length_take, hF]
    rw [rdbFooterSize] at hlen ⊢
    omega

/-- Without a footer the check with the checksum on fails. -/
theorem Saves.plain_not_verified (h : Saves e array others) (hcrc : lcfg.rdbCrc64 = true) :
    rdbVerifyFileIntegrity lcfg room (some (plainFile cfg io array others)) ≠ 0 := by
  intro hv
  obtain ⟨A, S, hfile, hS, hA⟩ := verified_tail hcrc hv
  rw [plainFile_dataSize] at hA
  have hlen := congrArg List.length hfile
  rw [plainFile, List.length_append, List.length_append, RdbHeader.length_bytes] at hlen
  simp only [List.length_cons, hS] at hlen
  have hmod := Nat.mod_lt ((array ++ others).flatMap RdbRecord.bytes).length
    (show 0 < 2 ^ 32 by decide)
  have hbig : 2 ^ 32 ≤ ((array ++ others).flatMap RdbRecord.bytes).length := by
    by_contra hsmall
    rw [Nat.mod_eq_of_lt (by omega)] at hA
    omega
  have hdata := congrArg (List.drop rdbHeaderBytes) hfile
  rw [plainFile_data, List.drop_append_of_le_length (by omega)] at hdata
  exact records_no_length h.type (h.last_type (h.others_ne_nil hbig)) hS hdata

/-- The file that a save with the checksum on leaves when it comes to its end. -/
def sealedFile (cfg : RdbConfig) (io : SaveIO) (array others : List RdbRecord) : List UInt8 :=
  (savedHeader cfg io array others).bytes ++
    (emptyFooter ++ ((array ++ others).flatMap RdbRecord.bytes).drop rdbFooterSize)

/-- What a save that returned 0 has left. -/
theorem kvsRdbSave_cases (hen : cfg.rdbEnabled = true)
    (hsave : kvsRdbSave cfg io e fs filename = some (0, fs')) :
    ∃ array others, Saves e array others ∧
      (cfg.rdbCrc64 = false ∧ fs' filename = some (plainFile cfg io array others) ∨
        cfg.rdbCrc64 = true ∧ ((array ++ others).flatMap RdbRecord.bytes).length % 2 ^ 32 = 0 ∧
          fs' filename = some (sealedFile cfg io array others)) := by
  have hopen : io.opens = true := by
    by_contra hno
    have hfail : kvsRdbSave cfg io e fs filename = some (-1, backedUp cfg io fs filename) := by
      simp [kvsRdbSave, hen, hno, backedUp]
    rw [hfail] at hsave
    cases hsave
  obtain ⟨array, others, hsaves⟩ := saves_of_kvsRdbSave hen hopen hsave
  rw [hsaves.kvsRdbSave hen hopen] at hsave
  refine ⟨array, others, hsaves, ?_⟩
  cases hcrc : cfg.rdbCrc64 with
  | false =>
    rw [saveRecords_plain hcrc] at hsave
    cases hsave
    exact .inl ⟨rfl, Function.update_self ..⟩
  | true =>
    by_cases hpass : io.room = true ∧
        ((array ++ others).flatMap RdbRecord.bytes).length % 2 ^ 32 = 0
    · rw [saveRecords_passes hcrc hpass.1 hpass.2] at hsave
      cases hsave
      exact .inr ⟨rfl, hpass.2, Function.update_self ..⟩
    · have hfail : io.room = false ∨
          ((array ++ others).flatMap RdbRecord.bytes).length % 2 ^ 32 ≠ 0 := by
        cases hr : io.room with
        | false => exact .inl rfl
        | true => exact .inr fun h => hpass ⟨hr, h⟩
      rw [saveRecords_fails hcrc hfail] at hsave
      cases hsave

theorem sealedFile_verified (hroom : room = true) :
    rdbVerifyFileIntegrity lcfg room (some (sealedFile cfg io [] [])) = 0 := by
  rw [hroom]
  have hsealed : rdbVerifyFileIntegrity lcfg true
      (some (sealed (savedHeader cfg io [] []) [] [] (rdbCalculateCrc64 []))) = 0 :=
    rdbVerifyFileIntegrity_sealed rfl rfl rfl (by decide) rfl
  exact hsealed

/-- A snapshot passes the check of a load exactly when the load does not ask for a checksum, or the
save did, there was nothing to save and there is memory to check it. -/
theorem kvsRdbSave_reload_iff (hen : cfg.rdbEnabled = true)
    (hsave : kvsRdbSave cfg io e fs filename = some (0, fs')) (lcfg : RdbConfig) (room : Bool) :
    rdbVerifyFileIntegrity lcfg room (fs' filename) = 0 ↔
      (lcfg.rdbCrc64 = true → cfg.rdbCrc64 = true ∧ e.Empty ∧ room = true) := by
  obtain ⟨array, others, hsaves, hfile⟩ := kvsRdbSave_cases hen hsave
  cases hcrc : lcfg.rdbCrc64 with
  | false =>
    refine iff_of_true ?_ fun h => absurd h Bool.false_ne_true
    obtain ⟨-, hfile⟩ | ⟨-, -, hfile⟩ := hfile
    · rw [hfile]
      exact verified_of_header rfl rfl hcrc _
    · rw [hfile]
      exact verified_of_header rfl rfl hcrc _
  | true =>
    rw [forall_prop_of_true rfl]
    obtain ⟨hplain, hfile⟩ | ⟨hsum, hwrap, hfile⟩ := hfile
    · rw [hfile, hplain]
      exact iff_of_false (hsaves.plain_not_verified hcrc) fun h => absurd h.1 Bool.false_ne_true
    · rw [hfile, and_iff_right hsum]
      constructor
      · intro hv
        refine ⟨?_, ((rdbVerifyFileIntegrity_eq_zero.mp hv).2.2.2 hcrc).2.2.2.1⟩
        by_contra hne
        refine hsaves.wrapped_not_verified hcrc hwrap (fun hnil => hne ?_) hv
        obtain ⟨rfl, rfl⟩ := List.append_eq_nil_iff.mp hnil
        exact Engines.empty_iff.mpr hsaves
      · rintro ⟨hempty, hroom⟩
        obtain ⟨rfl, rfl⟩ := (Engines.empty_iff.mp hempty).unique hsaves
        exact sealedFile_verified hroom

/-- The configuration that saves and checks without a checksum. -/
def uncheckedConfig : RdbConfig := { checkedConfig with rdbCrc64 := false }

theorem oneKey_saved : ∃ fs',
    kvsRdbSave uncheckedConfig readyIO oneKey (fun _ => none) .empty = some (0, fs') := by
  rw [oneKey_saves.kvsRdbSave rfl rfl, saveRecords_plain rfl]
  exact ⟨_, rfl⟩

theorem kvsRdbSave_reload_iff_unchecked : ∃ fs',
    kvsRdbSave uncheckedConfig readyIO oneKey (fun _ => none) .empty = some (0, fs') ∧
      rdbVerifyFileIntegrity uncheckedConfig true (fs' .empty) = 0 := by
  obtain ⟨fs', hsave⟩ := oneKey_saved
  exact ⟨fs', hsave, (kvsRdbSave_reload_iff rfl hsave uncheckedConfig true).mpr
    fun h => absurd h Bool.false_ne_true⟩

/-- A snapshot of one key, saved without a checksum, does not pass once the checksum is on. -/
theorem rdbVerifyFileIntegrity_ignores_flags : ¬ ∀ (cfg lcfg : RdbConfig) (io : SaveIO) (e : Engines)
    (fs fs' : Files) (filename : CString), cfg.rdbEnabled = true →
    kvsRdbSave cfg io e fs filename = some (0, fs') →
    rdbVerifyFileIntegrity lcfg true (fs' filename) = 0 := by
  intro hall
  obtain ⟨fs', hsave⟩ := oneKey_saved
  have hv := hall uncheckedConfig checkedConfig readyIO oneKey _ fs' .empty rfl hsave
  obtain ⟨array, others, hsaves, ⟨-, hfile⟩ | ⟨hcrc, -⟩⟩ := kvsRdbSave_cases rfl hsave
  · rw [hfile] at hv
    exact hsaves.plain_not_verified rfl hv
  · exact absurd hcrc Bool.false_ne_true

end KvStore
