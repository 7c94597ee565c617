import Mathlib
import HassanNode.Net.Ip

/-!
# HassanNode.Net.AddrMan

The address manager of `addrman.rs`: buckets of new and of tried addresses, filled from
gossip and read when peers are selected.

A selection is the first addresses of the tables, tried before new
(`AddrMan.select_eq`). The groups are collected and not consulted, so the selection is
diverse exactly when the order of the tables makes it so (`AddrMan.select_diverse_iff`).
The bucket of an address is a hash of the address and not only of its group, so one
group reaches as many buckets as its addresses hash to (`AddrMan.one_bucket_iff`).
-/

namespace HassanNode

def newBuckets : Nat := 64
def triedBuckets : Nat := 32
def addrsPerBucket : Nat := 64
def maxAddrsTotal : Nat := 2048

structure AddrRecord where
  addr : Text
  lastSuccessMs : Nat
  lastTryMs : Nat
  attempts : Nat
  source : Text
  deriving DecidableEq, Repr

structure AddrMan where
  new : List (List AddrRecord)
  tried : List (List AddrRecord)
  feelers : List Text
  deriving DecidableEq

/-- `net_group`: /16 for IPv4, /32 for IPv6. -/
def netGroup : IpAddr → Bytes
  | .v4 ip => [ip.a, ip.b]
  | .v6 ip => [(ip.s0 >>> 8).toUInt8, ip.s0.toUInt8, (ip.s1 >>> 8).toUInt8, ip.s1.toUInt8]

section Groups

variable [IpParser]

/-- `parse_host`. -/
def parseHost (addr : Text) : Option IpAddr :=
  IpParser.parse (match addr.rsplitOnce ':' with
    | some (host, _) => host.trimMatches Text.isBracket
    | none => addr)

/-- The network group of an address whose host is a literal. -/
def groupOf (addr : Text) : Option Bytes := (parseHost addr).map netGroup

/-- `bucket_for`. -/
def bucketFor [Crypto] (addr : Text) (nBuckets : Nat) (salt : UInt8) : Nat :=
  let group := match parseHost addr with
    | some ip => netGroup ip
    | none => []
  let out := (Crypto.blake3 (utf8 "hassan-addrman-bucket-v1" ++ [salt] ++ addr.utf8 ++ group)).asBytes.take 8
  Bytes.toNatLE out % max nBuckets 1

end Groups

namespace AddrMan

/-- `Vec::resize` of a table. -/
def resize (n : Nat) (buckets : List (List AddrRecord)) : List (List AddrRecord) :=
  buckets.take n ++ List.replicate (n - buckets.length) []

/-- `new`. -/
def init : AddrMan := ⟨List.replicate newBuckets [], List.replicate triedBuckets [], []⟩

/-- `ensure_buckets`. -/
def ensureBuckets (m : AddrMan) : AddrMan :=
  { m with
    new := if m.new.length ≠ newBuckets then resize newBuckets m.new else m.new
    tried := if m.tried.length ≠ triedBuckets then resize triedBuckets m.tried else m.tried }

def len (m : AddrMan) : Nat := (m.new.map List.length).sum + (m.tried.map List.length).sum

def contains (m : AddrMan) (addr : Text) : Bool :=
  (m.new ++ m.tried).any fun bucket => bucket.any fun r => r.addr = addr

section Operations

variable [IpParser]

/-- `add`: the manager after it, and whether the address is new. -/
def add [Crypto] (m : AddrMan) (addr source : Text) : AddrMan × Bool :=
  let m := m.ensureBuckets
  if addr = [] ∨ m.contains addr then (m, false)
  else if m.len ≥ maxAddrsTotal then (m, false)
  else
    let b := bucketFor addr newBuckets 0x4e
    let bucket := m.new.getD b []
    let bucket := if bucket.length ≥ addrsPerBucket then bucket.eraseIdx 0 else bucket
    let record := { addr, lastSuccessMs := 0, lastTryMs := 0, attempts := 0, source }
    ({ m with
        new := m.new.set b (bucket ++ [record])
        feelers := if addr ∈ m.feelers then m.feelers else m.feelers ++ [addr] }, true)

/-- The closure of `select`, with what it has collected. Whether the group was there
already is tested, and nothing is done in either case. -/
def selectPush (n : Nat) (exclude : Finset Text) (st : List Text × Finset Bytes) (addr : Text) :
    List Text × Finset Bytes :=
  if st.1.length ≥ n ∨ addr ∈ exclude then st
  else
    let groups := match parseHost addr with
      | some ip => insert (netGroup ip) st.2
      | none => st.2
    (if addr ∈ st.1 then st.1 else st.1 ++ [addr], groups)

/-- `select`. -/
def select (m : AddrMan) (n : Nat) (exclude : Finset Text) : List Text :=
  (((m.tried ++ m.new).flatten.map (·.addr)).foldl (selectPush n exclude) ([], ∅)).1

end Operations

/-! ### Selection -/

/-- The stored addresses, in the order in which they are read. -/
def addresses (m : AddrMan) : List Text := (m.tried ++ m.new).flatten.map (·.addr)

/-- Those that are not excluded, each where it comes first. -/
def candidates (m : AddrMan) (exclude : Finset Text) : List Text :=
  (m.addresses.filter (· ∉ exclude)).eraseDups

variable {m : AddrMan} {exclude : Finset Text} {n : Nat}

theorem eraseDups_concat (xs : List Text) (a : Text) :
    (xs ++ [a]).eraseDups = if a ∈ xs then xs.eraseDups else xs.eraseDups ++ [a] := by
  rw [List.eraseDups_append]
  by_cases ha : a ∈ xs
  · rw [if_pos ha]
    simp [List.removeAll, ha]
  · rw [if_neg ha]
    simp [List.removeAll, ha, List.eraseDups_cons]

theorem nodup_eraseDups (xs : List Text) : xs.eraseDups.Nodup := by
  induction xs using List.reverseRecOn with
  | nil => exact List.nodup_nil
  | append_singleton xs a ih =>
      rw [eraseDups_concat]
      split
      · exact ih
      · rename_i ha
        refine List.nodup_append.mpr ⟨ih, List.nodup_singleton a, fun x hx y hy hxy => ?_⟩
        obtain rfl := List.mem_singleton.mp hy
        exact ha (List.mem_eraseDups.mp (hxy ▸ hx))

theorem mem_candidates {a : Text} : a ∈ m.candidates exclude ↔ a ∈ m.addresses ∧ a ∉ exclude := by
  rw [candidates, List.mem_eraseDups, List.mem_filter, decide_eq_true_iff]

theorem nodup_candidates : (m.candidates exclude).Nodup := nodup_eraseDups _

/-- **A selection is the first candidates.** -/
theorem select_eq [IpParser] (m : AddrMan) (n : Nat) (exclude : Finset Text) :
    m.select n exclude = (m.candidates exclude).take n := by
  have hfold : ∀ xs : List Text, (xs.foldl (selectPush n exclude) ([], ∅)).1
      = ((xs.filter (· ∉ exclude)).eraseDups).take n := by
    intro xs
    induction xs using List.reverseRecOn with
    | nil => simp
    | append_singleton xs a ih =>
        obtain ⟨st, hst⟩ : ∃ st, st = xs.foldl (selectPush n exclude) ([], ∅) := ⟨_, rfl⟩
        rw [← hst] at ih
        rw [List.foldl_concat, ← hst, List.filter_append]
        by_cases hex : a ∈ exclude
        · rw [selectPush, if_pos (Or.inr hex), ih]
          simp [hex]
        · have hone : [a].filter (· ∉ exclude) = [a] := by simp [hex]
          rw [hone, eraseDups_concat]
          by_cases hfull : st.1.length ≥ n
          · rw [selectPush, if_pos (Or.inl hfull), ih]
            rw [ih, List.length_take] at hfull
            split
            · rfl
            · rw [List.take_append_of_le_length (by omega)]
          · rw [selectPush, if_neg (not_or.mpr ⟨hfull, hex⟩)]
            -- there is room, so all that came before is there
            have hall : st.1 = (xs.filter (· ∉ exclude)).eraseDups := by
              rw [ih, List.length_take] at hfull
              rw [ih, List.take_of_length_le (by omega)]
            have hmem : a ∈ st.1 ↔ a ∈ xs.filter (· ∉ exclude) := by rw [hall, List.mem_eraseDups]
            dsimp only
            simp only [hmem]
            split
            · exact ih
            · rw [hall, List.take_of_length_le]
              rw [hall] at hfull
              rw [List.length_append, List.length_singleton]
              omega
  exact hfold m.addresses

section Diversity

variable [IpParser]

/-- Two addresses of one network group. -/
def SameGroup (a b : Text) : Prop := ∃ g, groupOf a = some g ∧ groupOf b = some g

/-- What a selection is for: as many stored addresses as there are, up to `n`, different
and not excluded; and a group twice only when no group is missing. -/
structure Diverse (m : AddrMan) (n : Nat) (exclude : Finset Text) (out : List Text) : Prop where
  length : out.length = min n (m.addresses.toFinset \ exclude).card
  distinct : out.Nodup
  stored : ∀ a ∈ out, a ∈ m.addresses ∧ a ∉ exclude
  diverse : ∀ a ∈ out, ∀ b ∈ out, a ≠ b → SameGroup a b →
    ∀ c ∈ m.addresses, c ∉ exclude → ∀ g, groupOf c = some g → ∃ d ∈ out, groupOf d = some g

/-- In the order of the tables: when two of the first `n` candidates share a group, every
group of a later candidate is already there. -/
def Spread (m : AddrMan) (n : Nat) (exclude : Finset Text) : Prop :=
  ∀ a ∈ (m.candidates exclude).take n, ∀ b ∈ (m.candidates exclude).take n, a ≠ b → SameGroup a b →
    ∀ c ∈ (m.candidates exclude).drop n, ∀ g, groupOf c = some g →
      ∃ d ∈ (m.candidates exclude).take n, groupOf d = some g

/-- **When a selection is diverse**: exactly when the order of the tables spreads the groups. -/
theorem select_diverse_iff (m : AddrMan) (n : Nat) (exclude : Finset Text) :
    m.Diverse n exclude (m.select n exclude) ↔ m.Spread n exclude := by
  rw [select_eq]
  constructor
  · intro h a ha b hb hne hsame c hc g hg
    obtain ⟨hstored, hallowed⟩ := mem_candidates.mp (List.mem_of_mem_drop hc)
    exact h.diverse a ha b hb hne hsame c hstored hallowed g hg
  · intro h
    refine ⟨?_, nodup_candidates.sublist (List.take_sublist _ _), ?_, ?_⟩
    · have hset : m.addresses.toFinset \ exclude = (m.candidates exclude).toFinset := by
        ext a
        rw [Finset.mem_sdiff, List.mem_toFinset, List.mem_toFinset, mem_candidates]
      rw [hset, List.toFinset_card_of_nodup nodup_candidates, List.length_take]
    · exact fun a ha => mem_candidates.mp (List.mem_of_mem_take ha)
    · intro a ha b hb hne hsame c hc hallowed g hg
      have hcand : c ∈ (m.candidates exclude).take n ++ (m.candidates exclude).drop n := by
        rw [List.take_append_drop]
        exact mem_candidates.mpr ⟨hc, hallowed⟩
      rcases List.mem_append.mp hcand with hfirst | hlater
      · exact ⟨c, hfirst, hg⟩
      · exact h a ha b hb hne hsame c hlater g hg

end Diversity

/-! ### Buckets -/

variable {addr source : Text} {i : Nat}

/-- A bucket of the new table. -/
def bucket (m : AddrMan) (i : Nat) : List AddrRecord := m.new.getD i []

theorem bucket_ensureBuckets (hi : i < newBuckets) : m.ensureBuckets.bucket i = m.bucket i := by
  rw [bucket, ensureBuckets, bucket]
  dsimp only
  split
  · rw [resize, List.getD_eq_getElem?_getD, List.getD_eq_getElem?_getD, List.getElem?_append, List.length_take,
      List.getElem?_take_of_lt hi]
    split
    · rfl
    · rename_i hlong
      have hshort : m.new.length ≤ i := by omega
      rw [List.getElem?_eq_none hshort, List.getElem?_replicate]
      split <;> rfl
  · rfl

theorem length_ensureBuckets (m : AddrMan) : m.ensureBuckets.new.length = newBuckets := by
  rw [ensureBuckets]
  dsimp only
  split
  · rw [resize, List.length_append, List.length_take, List.length_replicate]
    omega
  · rename_i hlen
    exact not_not.mp hlen

theorem ensureBuckets_eq (hnew : m.new.length = newBuckets) (htried : m.tried.length = triedBuckets) :
    m.ensureBuckets = m := by
  rw [ensureBuckets, if_neg (not_not.mpr hnew), if_neg (not_not.mpr htried)]

/-- The record of an address that was just taken in. -/
def fresh (addr source : Text) : AddrRecord := { addr, lastSuccessMs := 0, lastTryMs := 0, attempts := 0, source }

/-- What `add` makes of the bucket: the oldest record leaves a full one, the new record
comes last. -/
def pushed (bucket : List AddrRecord) (record : AddrRecord) : List AddrRecord :=
  (if bucket.length ≥ addrsPerBucket then bucket.eraseIdx 0 else bucket) ++ [record]

theorem length_pushed {bucket : List AddrRecord} (hfull : bucket.length = addrsPerBucket) (record : AddrRecord) :
    (pushed bucket record).length = bucket.length := by
  have hpos : 0 < bucket.length := hfull ▸ (by decide)
  rw [pushed, if_pos hfull.ge, List.length_append, List.length_singleton, List.length_eraseIdx_of_lt hpos,
    Nat.sub_add_cancel hpos]

/-! ### Two crowded buckets -/

/-- A record of a host name, `k` letters and one more. -/
def stranger (k : Nat) : AddrRecord := fresh (List.replicate (k + 1) 'x') []

/-- A bucket full of strangers. -/
def crowd (i : Nat) : List AddrRecord := (List.range addrsPerBucket).map fun k => stranger (addrsPerBucket * i + k)

/-- A table with two crowded buckets. -/
def crowded (b b' : Nat) : AddrMan where
  new := (List.range newBuckets).map fun i => if i = b ∨ i = b' then crowd i else []
  tried := List.replicate triedBuckets []
  feelers := []

theorem length_crowd (i : Nat) : (crowd i).length = addrsPerBucket := by
  rw [crowd, List.length_map, List.length_range]

theorem bucket_crowded {b b' : Nat} (hi : i < newBuckets) (h : i = b ∨ i = b') : (crowded b b').bucket i = crowd i := by
  rw [bucket, crowded, List.getD_eq_getElem?_getD, List.getElem?_map, List.getElem?_range hi, Option.map_some,
    if_pos h, Option.getD_some]

/-- It is far from full. -/
theorem len_crowded (b b' : Nat) : (crowded b b').len < maxAddrsTotal := by
  have htried : ((List.replicate triedBuckets ([] : List AddrRecord)).map List.length).sum = 0 := by simp
  have hsplit : ∀ i, (if i = b ∨ i = b' then crowd i else []).length
      ≤ (if i = b then addrsPerBucket else 0) + if i = b' then addrsPerBucket else 0 := by
    intro i
    split
    · rename_i hi
      rw [length_crowd]
      rcases hi with rfl | rfl
      · rw [if_pos rfl]
        exact Nat.le_add_right _ _
      · rw [if_pos rfl]
        exact Nat.le_add_left _ _
    · exact Nat.zero_le _
  have hone : ∀ c, ∑ i ∈ Finset.range newBuckets, (if i = c then addrsPerBucket else 0) ≤ addrsPerBucket := by
    intro c
    rw [Finset.sum_ite_eq']
    split
    · exact Nat.le_refl _
    · exact Nat.zero_le _
  have hnew : ((crowded b b').new.map List.length).sum ≤ addrsPerBucket + addrsPerBucket := by
    rw [crowded, List.map_map, ← List.sum_toFinset _ List.nodup_range, List.toFinset_range]
    refine (Finset.sum_le_sum fun i _ => hsplit i).trans ?_
    rw [Finset.sum_add_distrib]
    exact Nat.add_le_add (hone b) (hone b')
  rw [len, show (crowded b b').tried = List.replicate triedBuckets [] from rfl, htried, Nat.add_zero]
  exact lt_of_le_of_lt hnew (by decide)

/-- A host name has no group. -/
theorem groupOf_stranger [IpParser] (hlit : IpParser.Literal) (k : Nat) : groupOf (stranger k).addr = none := by
  have hplain : (stranger k).addr.rsplitOnce ':' = none := if_neg fun hmem => by
    have hx := List.eq_of_mem_replicate hmem
    exact absurd hx (by decide)
  have hparse : parseHost (stranger k).addr = none := by
    rw [parseHost, hplain]
    refine Option.eq_none_iff_forall_ne_some.mpr fun ip hip => ?_
    have hchars := List.all_eq_true.mp (hlit.chars _ ip hip) 'x' (List.mem_replicate.mpr ⟨Nat.succ_ne_zero k, rfl⟩)
    exact absurd hchars (by decide)
  rw [groupOf, hparse]
  rfl

section Eviction

variable [Crypto] [IpParser]

/-- The bucket of the new table that an address goes to. -/
def newBucket (addr : Text) : Nat := bucketFor addr newBuckets 0x4e

theorem newBucket_lt (addr : Text) : newBucket addr < newBuckets := Nat.mod_lt _ (by decide)

/-- Whether an address is taken in. -/
def Takes (m : AddrMan) (addr : Text) : Prop :=
  addr ≠ [] ∧ m.ensureBuckets.contains addr = false ∧ m.ensureBuckets.len < maxAddrsTotal

/-- **What `add` does**: nothing but to make the buckets, or, when it takes the address in,
one bucket of the new table gets its record. -/
theorem add_cases (m : AddrMan) (addr source : Text) :
    ((m.add addr source).1 = m.ensureBuckets ∧ ¬ m.Takes addr) ∨
    (m.Takes addr ∧
      (m.add addr source).1.new = m.ensureBuckets.new.set (newBucket addr)
        (pushed (m.ensureBuckets.bucket (newBucket addr)) (fresh addr source)) ∧
      (m.add addr source).1.tried = m.ensureBuckets.tried) := by
  rw [add]
  dsimp only
  by_cases hskip : addr = [] ∨ m.ensureBuckets.contains addr = true
  · rw [if_pos hskip]
    refine Or.inl ⟨rfl, fun h => ?_⟩
    rcases hskip with hnil | hthere
    · exact h.1 hnil
    · rw [h.2.1] at hthere
      cases hthere
  · rw [if_neg hskip]
    by_cases hfull : m.ensureBuckets.len ≥ maxAddrsTotal
    · rw [if_pos hfull]
      exact Or.inl ⟨rfl, fun h => absurd h.2.2 (Nat.not_lt.mpr hfull)⟩
    · rw [if_neg hfull]
      obtain ⟨hsome, hnew⟩ := not_or.mp hskip
      exact Or.inr ⟨⟨hsome, Bool.eq_false_iff.mpr hnew, Nat.not_le.mp hfull⟩, rfl, rfl⟩

/-- The bucket of an address that is taken in. -/
theorem bucket_add_same (h : m.Takes addr) :
    (m.add addr source).1.bucket (newBucket addr) = pushed (m.bucket (newBucket addr)) (fresh addr source) := by
  rcases m.add_cases addr source with ⟨-, hnot⟩ | ⟨-, hnew, -⟩
  · exact absurd h hnot
  · have hlt : newBucket addr < m.ensureBuckets.new.length := by
      rw [length_ensureBuckets]
      exact newBucket_lt addr
    rw [bucket, hnew, List.getD_eq_getElem?_getD, List.getElem?_set_self hlt, Option.getD_some,
      bucket_ensureBuckets (newBucket_lt addr)]

/-- Every other bucket, and all of them if it is not taken in. -/
theorem bucket_add_other (hi : i < newBuckets) (h : ¬ m.Takes addr ∨ i ≠ newBucket addr) :
    (m.add addr source).1.bucket i = m.bucket i := by
  rcases m.add_cases addr source with ⟨hsame, -⟩ | ⟨htakes, hnew, -⟩
  · rw [hsame, bucket_ensureBuckets hi]
  · have hne := h.resolve_left (not_not.mpr htakes)
    rw [bucket, hnew, List.getD_eq_getElem?_getD, List.getElem?_set_ne (Ne.symm hne), ← List.getD_eq_getElem?_getD]
    exact bucket_ensureBuckets hi

/-! ### One group against the others -/

/-- A sequence of calls of `add`. -/
def addAll (m : AddrMan) (calls : List (Text × Text)) : AddrMan :=
  calls.foldl (fun m call => (m.add call.1 call.2).1) m

/-- The records of a bucket that do not belong to a group. -/
def others (m : AddrMan) (g : Bytes) (i : Nat) : List AddrRecord :=
  (m.bucket i).filter fun r => groupOf r.addr ≠ some g

/-- The calls evict records of other groups from at most one bucket. -/
def LosesFromOne (g : Bytes) (calls : List (Text × Text)) (m : AddrMan) : Prop :=
  ∃ b, ∀ i < newBuckets, i ≠ b → (m.addAll calls).others g i = m.others g i

variable {g : Bytes} {calls : List (Text × Text)} {b b' : Nat}

/-- Calls for addresses of a group leave fewer and fewer of the others. -/
theorem others_add (hi : i < newBuckets) (hg : groupOf addr = some g) :
    ((m.add addr source).1.others g i).Sublist (m.others g i) := by
  by_cases h : m.Takes addr ∧ i = newBucket addr
  · obtain ⟨htakes, rfl⟩ := h
    have hnone : [fresh addr source].filter (fun r => groupOf r.addr ≠ some g) = [] := by simp [fresh, hg]
    rw [others, bucket_add_same htakes, pushed, List.filter_append, hnone, List.append_nil]
    split
    · exact (List.eraseIdx_sublist _ _).filter _
    · exact List.Sublist.refl _
  · rw [others, bucket_add_other hi (not_and_or.mp h)]
    exact List.Sublist.refl _

theorem others_addAll (hi : i < newBuckets) (hg : ∀ call ∈ calls, groupOf call.1 = some g) :
    ((m.addAll calls).others g i).Sublist (m.others g i) := by
  induction calls generalizing m with
  | nil => exact List.Sublist.refl _
  | cons call calls ih =>
      exact (ih fun x hx => hg x (List.mem_cons_of_mem call hx)).trans (others_add hi (hg call List.mem_cons_self))

/-- Calls for addresses of other buckets leave a bucket alone. -/
theorem bucket_addAll (hi : i < newBuckets) (hother : ∀ call ∈ calls, newBucket call.1 ≠ i) :
    (m.addAll calls).bucket i = m.bucket i := by
  induction calls generalizing m with
  | nil => rfl
  | cons call calls ih =>
      exact (ih fun x hx => hother x (List.mem_cons_of_mem call hx)).trans
        (bucket_add_other hi (Or.inr (Ne.symm (hother call List.mem_cons_self))))

/-- The crowded table while addresses of the one bucket come in. -/
structure Crowding (m : AddrMan) (b b' : Nat) : Prop where
  lengths : m.new.map List.length = (crowded b b').new.map List.length
  tried : m.tried = List.replicate triedBuckets []
  known : ∀ bucket ∈ m.new, ∀ r ∈ bucket, groupOf r.addr = none ∨ newBucket r.addr = b

theorem crowding_crowded (hlit : IpParser.Literal) (b b' : Nat) : (crowded b b').Crowding b b' := by
  refine ⟨rfl, rfl, fun bucket hbucket r hr => Or.inl ?_⟩
  obtain ⟨i, -, rfl⟩ := List.mem_map.mp hbucket
  split at hr
  · obtain ⟨k, -, rfl⟩ := List.mem_map.mp hr
    exact groupOf_stranger hlit _
  · cases hr

namespace Crowding

variable (h : m.Crowding b b')

include h

theorem length_new : m.new.length = newBuckets := by
  have hlen := congrArg List.length h.lengths
  rwa [List.length_map, List.length_map, crowded, List.length_map, List.length_range] at hlen

theorem ensureBuckets : m.ensureBuckets = m :=
  ensureBuckets_eq h.length_new (by rw [h.tried, List.length_replicate])

theorem length_bucket (hi : i < newBuckets) (hfull : i = b ∨ i = b') : (m.bucket i).length = addrsPerBucket := by
  have hat : (m.new.map List.length)[i]? = ((crowded b b').new.map List.length)[i]? := by rw [h.lengths]
  have hlt : i < m.new.length := h.length_new ▸ hi
  rw [List.getElem?_map, List.getElem?_map, crowded, List.getElem?_map, List.getElem?_range hi, Option.map_some,
    if_pos hfull, Option.map_some, length_crowd, List.getElem?_eq_getElem hlt, Option.map_some] at hat
  rw [bucket, List.getD_eq_getElem _ _ hlt]
  exact Option.some.inj hat

/-- An address of the group is taken in, unless it went to the crowded bucket before. -/
theorem takes (hlit : IpParser.Literal) (hg : groupOf addr = some g) (hnew : ∀ bucket ∈ m.new, ∀ r ∈ bucket, r.addr ≠ addr) :
    m.Takes addr := by
  rw [Takes, h.ensureBuckets]
  refine ⟨?_, ?_, ?_⟩
  · rintro rfl
    obtain ⟨ip, hip, -⟩ := Option.map_eq_some_iff.mp hg
    exact hlit.nonempty _ ip hip rfl
  · rw [contains, List.any_eq_false]
    intro bucket hbucket hany
    obtain ⟨r, hr, hsame⟩ := List.any_eq_true.mp hany
    rcases List.mem_append.mp hbucket with hbucket | hbucket
    · exact hnew bucket hbucket r hr (of_decide_eq_true hsame)
    · rw [h.tried] at hbucket
      obtain rfl := List.eq_of_mem_replicate hbucket
      cases hr
  · have hlen : m.len = (crowded b b').len := by rw [len, len, h.lengths, h.tried]; rfl
    rw [hlen]
    exact len_crowded b b'

/-- One more address of the crowded bucket. -/
theorem add (hb : newBucket addr = b) : (m.add addr source).1.Crowding b b' := by
  rcases m.add_cases addr source with ⟨hsame, -⟩ | ⟨-, hnew, htried⟩
  · rw [hsame, h.ensureBuckets]
    exact h
  · rw [h.ensureBuckets, hb] at hnew
    rw [h.ensureBuckets] at htried
    have hlt : b < m.new.length := h.length_new ▸ hb ▸ newBucket_lt addr
    have hat : m.new[b] = m.bucket b := by rw [bucket, List.getD_eq_getElem _ _ hlt]
    have hfull := h.length_bucket (i := b) (hb ▸ newBucket_lt addr) (Or.inl rfl)
    refine ⟨?_, htried.trans h.tried, fun l hl r hr => ?_⟩
    · rw [hnew, List.map_set, length_pushed hfull, ← hat, ← List.getElem_map List.length, List.set_getElem_self]
      · exact h.lengths
      · rwa [List.length_map]
    · rw [hnew] at hl
      rcases List.mem_or_eq_of_mem_set hl with hl | rfl
      · exact h.known l hl r hr
      · rcases List.mem_append.mp hr with hr | hr
        · have hold : r ∈ m.bucket b := by
            split at hr
            · exact List.mem_of_mem_eraseIdx hr
            · exact hr
          exact h.known (m.bucket b) (hat ▸ List.getElem_mem hlt) r hold
        · obtain rfl := List.mem_singleton.mp hr
          exact Or.inr hb

end Crowding

theorem Crowding.addAll (h : m.Crowding b b') (hb : ∀ call ∈ calls, newBucket call.1 = b) :
    (m.addAll calls).Crowding b b' := by
  induction calls generalizing m with
  | nil => exact h
  | cons call calls ih =>
      exact ih (h.add (hb call List.mem_cons_self)) fun x hx => hb x (List.mem_cons_of_mem call hx)

/-- A full bucket of strangers loses one to an address that is taken in. -/
theorem others_taken (hg : groupOf addr = some g) (htakes : m.Takes addr)
    (hcrowd : m.bucket (newBucket addr) = crowd (newBucket addr)) :
    ((m.add addr source).1.others g (newBucket addr)).length < addrsPerBucket := by
  have hnone : [fresh addr source].filter (fun r => groupOf r.addr ≠ some g) = [] := by simp [fresh, hg]
  have hfull := length_crowd (newBucket addr)
  rw [others, bucket_add_same htakes, hcrowd, pushed, if_pos hfull.ge, List.filter_append, hnone, List.append_nil]
  refine lt_of_le_of_lt (List.length_filter_le _ _) ?_
  rw [List.length_eraseIdx_of_lt (hfull ▸ (by decide)), hfull]
  decide

omit [Crypto] in
theorem others_crowded (hlit : IpParser.Literal) (hi : i < newBuckets) (hfull : i = b ∨ i = b') :
    ((crowded b b').others g i).length = addrsPerBucket := by
  rw [others, bucket_crowded hi hfull, List.filter_eq_self.mpr, length_crowd]
  intro r hr
  obtain ⟨k, -, rfl⟩ := List.mem_map.mp hr
  rw [groupOf_stranger hlit]
  rfl

theorem addAll_append (m : AddrMan) (calls calls' : List (Text × Text)) :
    m.addAll (calls ++ calls') = (m.addAll calls).addAll calls' := List.foldl_append

/-- Up to the first call for another bucket the table stays crowded, and then both buckets
have lost a stranger. -/
theorem loses_from_both (hlit : IpParser.Literal) {first call' : Text × Text} {pre post : List (Text × Text)}
    (hg : ∀ call ∈ first :: pre ++ call' :: post, groupOf call.1 = some g)
    (hpre : ∀ call ∈ pre, newBucket call.1 = newBucket first.1) (hne : newBucket call'.1 ≠ newBucket first.1) :
    ¬ (crowded (newBucket first.1) (newBucket call'.1)).LosesFromOne g (first :: pre ++ call' :: post) := by
  obtain ⟨m, hm⟩ : ∃ m, m = crowded (newBucket first.1) (newBucket call'.1) := ⟨_, rfl⟩
  have hcrowding : m.Crowding (newBucket first.1) (newBucket call'.1) := hm ▸ crowding_crowded hlit _ _
  have hgfirst := hg first List.mem_cons_self
  have hgcall : groupOf call'.1 = some g := hg call' (by simp)
  have hstart : ∀ {i}, i < newBuckets → i = newBucket first.1 ∨ i = newBucket call'.1 → m.bucket i = crowd i :=
    fun hi hfull => hm ▸ bucket_crowded hi hfull
  -- the first call takes one from its bucket
  have hlostfirst : ((m.addAll (first :: pre ++ call' :: post)).others g (newBucket first.1)).length < addrsPerBucket := by
    have htakes : m.Takes first.1 := by
      refine hcrowding.takes hlit hgfirst fun bucket hbucket r hr heq => ?_
      rw [hm] at hbucket
      obtain ⟨i, -, rfl⟩ := List.mem_map.mp hbucket
      split at hr
      · obtain ⟨k, -, rfl⟩ := List.mem_map.mp hr
        rw [← heq, groupOf_stranger hlit] at hgfirst
        cases hgfirst
      · cases hr
    have hone : ((m.add first.1 first.2).1.others g (newBucket first.1)).length < addrsPerBucket :=
      others_taken hgfirst htakes (hstart (newBucket_lt _) (Or.inl rfl))
    have hrest : ∀ call ∈ pre ++ call' :: post, groupOf call.1 = some g := fun x hx => hg x (List.mem_cons_of_mem first hx)
    exact lt_of_le_of_lt (others_addAll (newBucket_lt _) hrest).length_le hone
  -- the calls before the other bucket's leave that bucket alone, and then it loses one
  have hlostother : ((m.addAll (first :: pre ++ call' :: post)).others g (newBucket call'.1)).length < addrsPerBucket := by
    have hall : ∀ call ∈ first :: pre, newBucket call.1 = newBucket first.1 := by
      intro x hx
      rcases List.mem_cons.mp hx with rfl | hx
      · rfl
      · exact hpre x hx
    have hthen := hcrowding.addAll hall
    have hbucket : (m.addAll (first :: pre)).bucket (newBucket call'.1) = crowd (newBucket call'.1) := by
      rw [bucket_addAll (newBucket_lt _) fun x hx => by rw [hall x hx]; exact Ne.symm hne]
      exact hstart (newBucket_lt _) (Or.inr rfl)
    have htakes : (m.addAll (first :: pre)).Takes call'.1 := by
      refine hthen.takes hlit hgcall fun bucket hbucket r hr heq => ?_
      rcases hthen.known bucket hbucket r hr with hnone | hsame
      · rw [heq, hgcall] at hnone
        cases hnone
      · exact hne (heq ▸ hsame)
    have hone : (((m.addAll (first :: pre)).add call'.1 call'.2).1.others g (newBucket call'.1)).length < addrsPerBucket :=
      others_taken hgcall htakes hbucket
    have hpost : ∀ call ∈ post, groupOf call.1 = some g := fun x hx => hg x (by simp [hx])
    rw [addAll_append]
    show ((((m.addAll (first :: pre)).add call'.1 call'.2).1.addAll post).others g (newBucket call'.1)).length < addrsPerBucket
    exact lt_of_le_of_lt (others_addAll (newBucket_lt _) hpost).length_le hone
  rintro ⟨b, hb⟩
  rw [← hm] at hb
  have hkept : ∀ {i}, i < newBuckets → i = newBucket first.1 ∨ i = newBucket call'.1 → (m.others g i).length = addrsPerBucket :=
    fun hi hfull => hm ▸ others_crowded hlit hi hfull
  have heqfirst : newBucket first.1 = b := by
    by_contra hother
    rw [hb _ (newBucket_lt _) hother, hkept (newBucket_lt _) (Or.inl rfl)] at hlostfirst
    exact Nat.lt_irrefl _ hlostfirst
  have heqother : newBucket call'.1 = b := by
    by_contra hother
    rw [hb _ (newBucket_lt _) hother, hkept (newBucket_lt _) (Or.inr rfl)] at hlostother
    exact Nat.lt_irrefl _ hlostother
  exact hne (heqother.trans heqfirst.symm)

/-- **When one group can only flush one bucket**: for every table, exactly when its
addresses hash to one bucket. -/
theorem one_bucket_iff (hlit : IpParser.Literal) (hg : ∀ call ∈ calls, groupOf call.1 = some g) :
    (∀ m : AddrMan, m.LosesFromOne g calls) ↔
      ∀ call ∈ calls, ∀ call' ∈ calls, newBucket call.1 = newBucket call'.1 := by
  constructor
  · intro h
    cases calls with
    | nil => exact fun call hcall => absurd hcall List.not_mem_nil
    | cons first calls =>
        have hall : ∀ call ∈ calls, newBucket call.1 = newBucket first.1 := by
          by_contra hsome
          -- the first call that goes to another bucket
          obtain ⟨other, hother⟩ : ∃ other, calls.find? (fun call => newBucket call.1 ≠ newBucket first.1) = some other := by
            refine Option.isSome_iff_exists.mp (List.find?_isSome.mpr ?_)
            simpa using hsome
          obtain ⟨hne, pre, post, rfl, hpre⟩ := List.find?_eq_some_iff_append.mp hother
          refine loses_from_both hlit hg (fun x hx => ?_) (of_decide_eq_true hne) (h _)
          simpa using hpre x hx
        have hfirst : ∀ call ∈ first :: calls, newBucket call.1 = newBucket first.1 := by
          intro x hx
          rcases List.mem_cons.mp hx with rfl | hx
          · rfl
          · exact hall x hx
        exact fun call hcall call' hcall' => (hfirst call hcall).trans (hfirst call' hcall').symm
  · intro hone m
    cases calls with
    | nil => exact ⟨0, fun _ _ _ => rfl⟩
    | cons call calls =>
        refine ⟨newBucket call.1, fun i hi hne => ?_⟩
        rw [others, bucket_addAll hi fun x hx => ?_]
        · rfl
        · rw [hone x hx call List.mem_cons_self]
          exact Ne.symm hne

end Eviction

end AddrMan

namespace Sample

open AddrMan

/-- Two addresses of one group and one of another. -/
def peerLiterals : List (Text × IpAddr) :=
  [("203.0.113.1".toList, .v4 ⟨203, 0, 113, 1⟩), ("203.0.113.22".toList, .v4 ⟨203, 0, 113, 22⟩),
   ("198.51.100.1".toList, .v4 ⟨198, 51, 100, 1⟩)]

theorem peerLiterals_literal : @IpParser.Literal (parserOf peerLiterals) := parserOf_literal rfl

def firstPeer : Text := "203.0.113.1:8333".toList
def secondPeer : Text := "203.0.113.22:8333".toList
def otherPeer : Text := "198.51.100.1:8333".toList

/-- A bucket with the two of one group in front. -/
def groupedPeers : AddrMan := { init with new := [[fresh firstPeer [], fresh secondPeer [], fresh otherPeer []]] }

/-- Of three peers of two groups the two of one group are selected. -/
theorem select_same_group : ¬ ∀ (_ : IpParser) (m : AddrMan) (n : Nat) (exclude : Finset Text),
    m.Diverse n exclude (m.select n exclude) := by
  intro h
  let := parserOf peerLiterals
  have hselect : groupedPeers.select 2 ∅ = [firstPeer, secondPeer] := by decide
  have hdiverse := (h _ groupedPeers 2 ∅).diverse firstPeer (by simp [hselect]) secondPeer (by simp [hselect]) (by decide)
    ⟨[203, 0], rfl, rfl⟩ otherPeer (by decide) (Finset.notMem_empty _) [198, 51] rfl
  obtain ⟨d, hd, hgroup⟩ := hdiverse
  rw [hselect] at hd
  rcases List.mem_cons.mp hd with rfl | hd
  · exact absurd hgroup (by decide)
  · obtain rfl := List.mem_singleton.mp hd
    exact absurd hgroup (by decide)

/-- A digest whose first byte is the length of the message. -/
@[reducible] def lengthCrypto : Crypto := { sampleCrypto with blake3 msg := Hash.ofNat (msg.length % 256 * 256 ^ 63) }

/-- The calls of one group. -/
def groupCalls : List (Text × Text) := [(firstPeer, []), (secondPeer, [])]

theorem groupCalls_group : ∀ call ∈ groupCalls, @groupOf (parserOf peerLiterals) call.1 = some [203, 0] := by
  decide

/-- Under a digest that sends everything to one bucket one group flushes one bucket. -/
theorem one_bucket_sample : groupCalls.length = 2 ∧
    ∀ m : AddrMan, @LosesFromOne sampleCrypto (parserOf peerLiterals) [203, 0] groupCalls m := by
  refine ⟨rfl, (@one_bucket_iff sampleCrypto (parserOf peerLiterals) _ _ peerLiterals_literal groupCalls_group).mpr ?_⟩
  decide +kernel

/-- Two addresses of one group in different buckets. -/
theorem one_group_two_buckets : ¬ ∀ (_ : Crypto) (_ : IpParser), IpParser.Literal →
    ∀ (g : Bytes) (calls : List (Text × Text)), (∀ call ∈ calls, groupOf call.1 = some g) →
      ∀ m : AddrMan, m.LosesFromOne g calls := by
  intro h
  have hapart : @newBucket lengthCrypto (parserOf peerLiterals) secondPeer
      ≠ @newBucket lengthCrypto (parserOf peerLiterals) firstPeer := by decide +kernel
  refine @loses_from_both lengthCrypto (parserOf peerLiterals) [203, 0] peerLiterals_literal (firstPeer, [])
    (secondPeer, []) [] [] groupCalls_group (fun x hx => absurd hx List.not_mem_nil) hapart ?_
  exact h lengthCrypto (parserOf peerLiterals) peerLiterals_literal [203, 0] groupCalls groupCalls_group _

end Sample

end HassanNode
