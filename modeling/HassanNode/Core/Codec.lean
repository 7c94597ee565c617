import Mathlib
import HassanNode.Core.Bech32m

/-!
# HassanNode.Core.Codec

The other direction of the address codec: what `decode_address` reads was written by
`encode_hash` (`Address.map_toLower_of_decodeAddress`), so that an address is the only
lower-case spelling of its 32 bytes (`Address.codec`).

Every stage of the decoder determines what it read: the last separator splits the
string, a value has one character, the last six values are the one completion of the
checksum, and of the data that regroups to 32 bytes there is one.
-/

namespace HassanNode

namespace Address

/-! ### Characters -/

/-- A value has one character. -/
theorem charAt_of_idxOf {b : UInt8} {d : Nat} (h : charset.idxOf? b = some d) : d < 2 ^ 5 ∧ charAt d = b := by
  obtain ⟨hlt, hat, -⟩ := List.findIdx?_eq_some_iff_getElem.mp h
  have hlen : charset.length = 2 ^ 5 := by rw [charset_eq]; rfl
  refine ⟨hlen ▸ hlt, ?_⟩
  rw [charAt, List.getD_eq_getElem _ _ hlt]
  exact eq_of_beq hat

theorem map_charAt_of_mapM {bs : Bytes} {ds : List Nat} (h : bs.mapM charset.idxOf? = some ds) :
    (∀ d ∈ ds, d < 2 ^ 5) ∧ ds.map charAt = bs := by
  induction bs generalizing ds with
  | nil =>
      obtain rfl := Option.some.inj h
      exact ⟨fun d hd => absurd hd List.not_mem_nil, rfl⟩
  | cons b bs ih =>
      rw [List.mapM_cons] at h
      obtain ⟨d, hd, h⟩ := Option.bind_eq_some_iff.mp h
      obtain ⟨rest, hrest, h⟩ := Option.bind_eq_some_iff.mp h
      obtain rfl := Option.some.inj h
      obtain ⟨hlt, hat⟩ := charAt_of_idxOf hd
      obtain ⟨hlts, hats⟩ := ih hrest
      refine ⟨fun x hx => ?_, by rw [List.map_cons, hat, hats]⟩
      rcases List.mem_cons.mp hx with rfl | hx
      · exact hlt
      · exact hlts x hx

/-- The two parts of a split, with the separator between them. -/
theorem eq_append_of_rsplitOnce {addr front back : Bytes} (h : rsplitOnce addr = some (front, back)) :
    addr = front ++ 49 :: back := by
  unfold rsplitOnce at h
  cases hidx : addr.reverse.idxOf? 49 with
  | none => rw [hidx] at h; cases h
  | some i =>
      rw [hidx] at h
      obtain ⟨rfl, rfl⟩ := Prod.mk.inj (Option.some.inj h)
      obtain ⟨hlt, hat, -⟩ := List.findIdx?_eq_some_iff_getElem.mp hidx
      rw [List.length_reverse] at hlt
      have hback : addr.length - (i + 1) < addr.length := by omega
      have hsep : addr[addr.length - (i + 1)] = 49 := by
        rw [← eq_of_beq hat, List.getElem_reverse]
        congr 1
        omega
      have hnext : addr.length - i = addr.length - (i + 1) + 1 := by omega
      rw [hnext, ← hsep, ← List.drop_eq_getElem_cons, List.take_append_drop]

/-! ### The decoder -/

/-- The six characters of a checksum, as `encode` writes them. -/
theorem map_charAt_digitsBE (n : Nat) :
    (List.range 6).map (fun i => charAt ((n >>> (5 * (5 - i))) &&& 31)) = (digitsBE 5 6 n).map charAt := by
  have hgroup : ∀ k : Nat, (n >>> k) &&& 31 = n / 2 ^ k % 2 ^ 5 := by
    intro k
    rw [Nat.shiftRight_eq_div_pow]
    exact Nat.and_two_pow_sub_one_eq_mod _ 5
  simp only [hgroup]
  rfl

/-- What `decode` accepts: a string in one case whose lower-case form is a part in front, a
separator, and characters of values that complete the checksum. -/
theorem decode_eq_some {addr hrp : Bytes} {data : List Nat} (h : decode addr = some (hrp, data)) :
    (addr.any isUpper && addr.any isLower) = false ∧ ∃ values, (∀ v ∈ values, v < 2 ^ 5) ∧
      addr.map toLower = hrp ++ 49 :: values.map charAt ∧ polymod (hrpExpand hrp ++ values) = bech32mConst ∧
      6 ≤ values.length ∧ data = values.take (values.length - 6) := by
  unfold decode at h
  cases hcase : addr.any isUpper && addr.any isLower with
  | true => rw [hcase] at h; cases h
  | false =>
      rw [hcase, if_neg Bool.false_ne_true] at h
      obtain ⟨⟨front, back⟩, hsplit, h⟩ := Option.bind_eq_some_iff.mp h
      dsimp only at h
      by_cases hshort : front = [] ∨ back.length < 6
      · rw [if_pos hshort] at h
        cases h
      · rw [if_neg hshort] at h
        obtain ⟨values, hvalues, h⟩ := Option.bind_eq_some_iff.mp h
        by_cases hsum : polymod (hrpExpand front ++ values) = bech32mConst
        · rw [if_neg (not_not.mpr hsum)] at h
          obtain ⟨rfl, rfl⟩ := Prod.mk.inj (Option.some.inj h)
          obtain ⟨hlts, hats⟩ := map_charAt_of_mapM hvalues
          have hlong : 6 ≤ values.length := by
            rw [← List.length_map (f := charAt), hats]
            exact Nat.not_lt.mp (not_or.mp hshort).2
          exact ⟨rfl, values, hlts, by rw [hats, eq_append_of_rsplitOnce hsplit], hsum, hlong, rfl⟩
        · rw [if_pos hsum] at h
          cases h

/-- **What is decoded was encoded**: the lower-case form is what `encode` writes for the
result. -/
theorem encode_of_decode {addr hrp : Bytes} {data : List Nat} (h : decode addr = some (hrp, data)) :
    (∀ d ∈ data, d < 2 ^ 5) ∧ addr.map toLower = encode hrp data := by
  obtain ⟨-, values, hlts, hlower, hsum, hlong, rfl⟩ := decode_eq_some h
  have hparts : values.take (values.length - 6) ++ values.drop (values.length - 6) = values :=
    List.take_append_drop _ _
  have hsix : (values.drop (values.length - 6)).length = 6 := by
    rw [List.length_drop]
    omega
  rw [← hparts, ← List.append_assoc, polymod_eq_const_iff hsix fun d hd => hlts d (List.mem_of_mem_drop hd)] at hsum
  refine ⟨fun d hd => hlts d (List.mem_of_mem_take hd), ?_⟩
  rw [hlower, encode, map_charAt_digitsBE, ← hsum, utf8_one, List.append_assoc, ← List.map_append, hparts,
    List.append_assoc]
  rfl

/-! ### Regrouping back -/

/-- Data that regroups to 32 bytes is what those bytes regroup to. -/
theorem convertBits_back {data bytes : List Nat} (hdata : ∀ d ∈ data, d < 2 ^ 5)
    (h : convertBits data 5 8 false = some bytes) (hlen : bytes.length = 32) :
    (∀ b ∈ bytes, b < 2 ^ 8) ∧ convertBits bytes 8 5 true = some data := by
  obtain ⟨m, r, hr, hsplit⟩ : ∃ m r, r < 8 ∧ 5 * data.length = 8 * m + r :=
    ⟨5 * data.length / 8, 5 * data.length % 8, Nat.mod_lt _ (by norm_num), (Nat.div_add_mod _ _).symm⟩
  have hloop := @convertLoop_eq 5 8 (by norm_num) (by norm_num) data 0 0 m r hdata (by norm_num) hr
    (by rw [Nat.zero_add, hsplit])
  rw [Nat.zero_mod] at hloop
  rw [convertBits, hloop] at h
  simp only [Bool.false_eq_true, if_false] at h
  by_cases hrest : r ≥ 5 ∨ ((pushDigits 5 0 data % 2 ^ 32) <<< (8 - r) % 2 ^ 32) &&& (1 <<< 8 - 1) ≠ 0
  · rw [if_pos hrest] at h
    cases h
  · rw [if_neg hrest] at h
    obtain ⟨hshort, hzero⟩ := not_or.mp hrest
    have hbytes := Option.some.inj h
    -- 32 bytes and less than a value over are 52 values
    have hm : m = 32 := by rw [← hlen, ← hbytes, length_digitsBE]
    obtain ⟨rfl, hfifty⟩ : r = 4 ∧ data.length = 52 := by omega
    subst hm
    have hlow : pushDigits 5 0 data % 2 ^ 4 = 0 := by
      rw [Nat.one_shiftLeft, Nat.and_two_pow_sub_one_eq_mod, Nat.shiftLeft_eq] at hzero
      omega
    have hlt : pushDigits 5 0 data < 2 ^ (5 * 52) := hfifty ▸ pushDigits_lt hdata
    have hspell : pushDigits 8 0 bytes * 2 ^ 4 = pushDigits 5 0 data := by
      rw [← hbytes, pushDigits_digitsBE, Nat.mod_eq_of_lt (by omega)]
      omega
    have hsmall : ∀ b ∈ bytes, b < 2 ^ 8 := fun b hb => digitsBE_lt (hbytes ▸ hb)
    refine ⟨hsmall, ?_⟩
    rw [convertBits_bytes hlen hsmall, hspell, ← hfifty, digitsBE_pushDigits hdata]

/-! ### The codec -/

/-- The bytes of a digest that an address holds. -/
def payload (h : Hash) : List Nat := (h.asBytes.take payloadLen).map UInt8.toNat

/-- The lower-case spelling of 32 bytes. -/
def spell (p : List Nat) : Address := encode (utf8 "hsn") ((convertBits p 8 5 true).getD [])

theorem encodeHash_eq_spell (h : Hash) : encodeHash h = spell (payload h) := rfl

theorem decodeAddress_eq_some {addr : Address} {p : List Nat} (h : decodeAddress addr = some p) :
    ∃ data, decode addr = some (utf8 "hsn", data) ∧ convertBits data 5 8 false = some p ∧ p.length = payloadLen := by
  obtain ⟨⟨hrp, data⟩, hdecode, h⟩ := Option.bind_eq_some_iff.mp h
  dsimp only at h
  by_cases hname : hrp = utf8 "hsn"
  · rw [if_neg (not_not.mpr hname)] at h
    obtain ⟨bytes, hbytes, h⟩ := Option.bind_eq_some_iff.mp h
    by_cases hlen : bytes.length = payloadLen
    · rw [if_neg (not_not.mpr hlen)] at h
      obtain rfl := Option.some.inj h
      exact ⟨data, hname ▸ hdecode, hbytes, hlen⟩
    · rw [if_pos hlen] at h
      cases h
  · rw [if_pos hname] at h
    cases h

/-- **What `decode_address` reads has one spelling**, up to the case of the whole string. -/
theorem map_toLower_of_decodeAddress {addr : Address} {p : List Nat} (h : decodeAddress addr = some p) :
    (addr.any isUpper && addr.any isLower) = false ∧ addr.map toLower = spell p := by
  obtain ⟨data, hdecode, hbytes, hlen⟩ := decodeAddress_eq_some h
  obtain ⟨hdata, hlower⟩ := encode_of_decode hdecode
  refine ⟨(decode_eq_some hdecode).1, ?_⟩
  rw [spell, (convertBits_back hdata hbytes hlen).2, hlower]
  rfl

/-- A string without upper-case letters is its lower-case form. -/
theorem map_toLower_of_lower {addr : Address} (h : addr.any isUpper = false) : addr.map toLower = addr := by
  have hsame : ∀ b ∈ addr, toLower b = b := fun b hb => if_neg (List.any_eq_false.mp h b hb)
  exact (List.map_congr_left hsame).trans (List.map_id' _)

/-- **The codec is a bijection** between 32-byte payloads and lower-case addresses: a
digest's address reads back as its first 32 bytes; a string that reads as some bytes is in
one case and spells the address of every digest that starts with them; so no two strings
without upper-case letters read as the same bytes. And being equivalent is an equivalence
on valid addresses. -/
theorem codec :
    (∀ h : Hash, decodeAddress (encodeHash h) = some (payload h)) ∧
    (∀ (addr : Address) (p : List Nat), decodeAddress addr = some p →
      (addr.any isUpper = false ∨ addr.any isLower = false) ∧
        ∀ h : Hash, payload h = p → addr.map toLower = encodeHash h) ∧
    (∀ (a b : Address) (p : List Nat), a.any isUpper = false → b.any isUpper = false →
      decodeAddress a = some p → decodeAddress b = some p → a = b) ∧
    Equivalence fun a b : {a : Address // isValid a = true} => equivalent a.val b.val = true := by
  refine ⟨decodeAddress_encodeHash, ?_, ?_, ?_⟩
  · intro addr p h
    obtain ⟨hcase, hspell⟩ := map_toLower_of_decodeAddress h
    refine ⟨Bool.and_eq_false_iff.mp hcase, ?_⟩
    rintro d rfl
    rw [hspell, encodeHash_eq_spell]
  · intro a b p ha hb hreadA hreadB
    rw [← map_toLower_of_lower ha, ← map_toLower_of_lower hb, (map_toLower_of_decodeAddress hreadA).2,
      (map_toLower_of_decodeAddress hreadB).2]
  · exact ⟨fun a => equivalent_refl a.val, equivalent_symm, equivalent_trans⟩

end Address

end HassanNode
