import Mathlib
import HassanNode.Consensus.Heights
import HassanNode.Consensus.SuperProofAccepts

/-!
# HassanNode.Consensus.SuperProofBuilt

The multi-level pruning proof an archival node builds
(`build_multilevel_pruning_proof`), and when the verifier accepts it. The
verifier asks for more than `add_block` enforces: heights that are positions, and
difficulties within its own clamps. Where the node's blocks carry their position
and stay at the bootstrap floor, its proofs verify.
-/

namespace HassanNode

open Params

namespace MultiLevelPruningProof

variable [Crypto]

/-! ### The builder -/

/-- The hop loop of `build_multilevel_pruning_proof`: from a header to genesis,
by the highest interlink where there is one. On a chain from genesis every jump
goes down, so the length of the chain is enough fuel. -/
def hopWalk (chain : List Block) (split : Nat) : (fuel : Nat) → Block → Option (List Block)
  | 0, _ => none
  | fuel + 1, cursor =>
    if cursor.hash = genesisBlock.hash ∧ cursor.parents = [] then some [cursor]
    else
      match cursor.interlinks.getLast? with
      | none => do
        let prev ← (chain.take split).reverse.find? fun b =>
          cursor.parents.contains b.hash && b.hash != cursor.hash
        let hops ← hopWalk chain split fuel prev.headerOnly
        return cursor :: hops
      | some target => do
        let next ← chain.find? (·.hash == target)
        let hops ← hopWalk chain split fuel next.headerOnly
        return cursor :: hops

/-- `superproof::build_multilevel_pruning_proof`. -/
def build (chain : List Block) (recentWindow : Nat) : Option MultiLevelPruningProof :=
  let split := chain.length - max recentWindow 1
  if chain.isEmpty || split == 0 then none
  else do
    let cursor ← chain[split - 1]?
    let hops ← hopWalk chain split chain.length cursor.headerOnly
    return { recentHeaders := (chain.drop split).map Block.headerOnly, hops := hops }

/-! ### Hops of a served chain -/

section Hops

variable {now : Nat} {headers : List Block}

/-- Distinct headers that are nothing but headers. -/
structure Plain (headers : List Block) : Prop where
  distinct : ∀ (i j : Nat) (a b : Block), headers[i]? = some a → headers[j]? = some b →
    a.hash = b.hash → i = j
  stripped : ∀ (i : Nat) (b : Block), headers[i]? = some b → b.headerOnly = b

/-- Headers that carry their position. -/
structure Charted (headers : List Block) : Prop extends Plain headers where
  height : ∀ (i : Nat) (b : Block), headers[i]? = some b → b.height.toNat = i

/-- The search by hash finds the header asked for. -/
theorem Plain.find_hash (hplain : Plain headers) {j : Nat} {b : Block} (hb : headers[j]? = some b) :
    headers.find? (·.hash == b.hash) = some b := by
  cases hfind : headers.find? (·.hash == b.hash) with
  | none =>
      have := List.find?_eq_none.mp hfind b (List.mem_of_getElem? hb)
      simp at this
  | some x =>
      obtain ⟨i, hi⟩ := List.mem_iff_getElem?.mp (List.mem_of_find?_eq_some hfind)
      have heq : x.hash = b.hash := by simpa using List.find?_some hfind
      obtain rfl := hplain.distinct i j x b hi hb heq
      rw [← hi, hb]

/-- The pointers of a served header go to the headers before it. -/
theorem pointsAt_served (hserved : ChainState.Served now headers) {k : Nat} {b : Block}
    (hb : headers[k]? = some b) : PointsAt b.interlinks (headers.take k).reverse := by
  induction k generalizing b with
  | zero =>
      obtain rfl := Option.some.inj (hserved.genesis.symm.trans hb)
      exact PointsAt.nil
  | succ k ih =>
      have hk := (List.getElem?_eq_some_iff.mp hb).1
      obtain ⟨a, ha⟩ : ∃ a, headers[k]? = some a := ⟨_, List.getElem?_eq_getElem (by omega)⟩
      rw [(hserved.linked k a b ha hb).2.1, List.take_add_one, ha, Option.toList_some,
        List.reverse_append, List.reverse_singleton, List.singleton_append]
      exact (ih ha).child

/-- The highest pointer of a header after genesis is one of them. -/
theorem top_pointer (hserved : ChainState.Served now headers) {k : Nat} {b : Block}
    (hb : headers[k + 1]? = some b) : ∃ j older, j < k + 1 ∧ headers[j]? = some older ∧
      b.interlinks.getLast? = some older.hash := by
  have hpoints := pointsAt_served hserved hb
  have hk := (List.getElem?_eq_some_iff.mp hb).1
  obtain ⟨a, ha⟩ : ∃ a, headers[k]? = some a := ⟨_, List.getElem?_eq_getElem (by omega)⟩
  -- slot 0 is there, so there is a last slot
  have hzero : b.interlinks[0]? = some a.hash := by
    rw [hpoints 0, List.take_add_one, ha]
    simp
  have hpos := (List.getElem?_eq_some_iff.mp hzero).1
  have hlast : b.interlinks.getLast? = b.interlinks[b.interlinks.length - 1]? := List.getLast?_eq_getElem?
  have hsome : b.interlinks[b.interlinks.length - 1]? ≠ none := by
    rw [List.getElem?_eq_getElem (by omega)]
    simp
  obtain ⟨h, hh⟩ := Option.ne_none_iff_exists'.mp hsome
  have hslot := hpoints (b.interlinks.length - 1)
  rw [hh] at hslot
  obtain ⟨older, hfind, rfl⟩ := Option.map_eq_some_iff.mp hslot.symm
  obtain ⟨j, hj⟩ := List.mem_iff_getElem?.mp (List.mem_reverse.mp (List.mem_of_find?_eq_some hfind))
  rw [List.getElem?_take] at hj
  split at hj
  · exact ⟨j, older, by omega, hj, hlast.trans hh⟩
  · cases hj

/-- A way down from a position to genesis along pointers. -/
structure HopsFrom (headers : List Block) (k : Nat) (hops : List Block) : Prop where
  length : hops.length ≤ k + 1
  first : hops[0]? = headers[k]?
  last : hops.getLast? = headers[0]?
  mem : ∀ b ∈ hops, ∃ (j : Nat), j ≤ k ∧ headers[j]? = some b
  step : ∀ (i : Nat) (cur older : Block), hops[i]? = some cur → hops[i + 1]? = some older →
    ∃ (j j' : Nat), headers[j]? = some cur ∧ headers[j']? = some older ∧ j' < j ∧ older.hash ∈ cur.interlinks

theorem HopsFrom.cons {k j : Nat} {cur older : Block} {hops : List Block} (h : HopsFrom headers j hops)
    (hcur : headers[k]? = some cur) (holder : headers[j]? = some older) (hlt : j < k)
    (hlink : older.hash ∈ cur.interlinks) : HopsFrom headers k (cur :: hops) := by
  have hfirst : hops[0]? = some older := h.first.trans holder
  have hne : hops ≠ [] := by
    rintro rfl
    cases hfirst
  have hlen := h.length
  refine ⟨?_, hcur.symm, ?_, fun b hb => ?_, fun i c o hc ho => ?_⟩
  · rw [List.length_cons]
    omega
  · rw [List.getLast?_cons_of_ne_nil hne]
    exact h.last
  · obtain rfl | hb := List.mem_cons.mp hb
    · exact ⟨k, le_refl k, hcur⟩
    · obtain ⟨i, hi, hget⟩ := h.mem b hb
      exact ⟨i, by omega, hget⟩
  · cases i with
    | zero =>
        obtain rfl : cur = c := Option.some.inj hc
        obtain rfl : older = o := Option.some.inj (hfirst.symm.trans ho)
        exact ⟨k, j, hcur, holder, hlt, hlink⟩
    | succ i => exact h.step i c o hc ho

/-- The hop loop finds such a way. -/
theorem hopWalk_hopsFrom (hserved : ChainState.Served now headers) (hplain : Plain headers)
    (split : Nat) {k fuel : Nat} {cursor : Block} (hcursor : headers[k]? = some cursor) (hfuel : k < fuel) :
    ∃ hops, hopWalk headers split fuel cursor = some hops ∧ HopsFrom headers k hops := by
  induction k using Nat.strong_induction_on generalizing fuel cursor with
  | _ k ih =>
      obtain ⟨fuel, rfl⟩ := Nat.exists_eq_succ_of_ne_zero (by omega : fuel ≠ 0)
      rw [hopWalk]
      cases k with
      | zero =>
          obtain rfl := Option.some.inj (hserved.genesis.symm.trans hcursor)
          refine ⟨[genesisBlock.headerOnly], if_pos ⟨rfl, rfl⟩, le_refl 1, hserved.genesis.symm, ?_, ?_, ?_⟩
          · exact hserved.genesis.symm
          · intro b hb
            exact ⟨0, le_refl 0, List.mem_singleton.mp hb ▸ hcursor⟩
          · intro i c o _ ho
            cases ho
      | succ k =>
          have hk := (List.getElem?_eq_some_iff.mp hcursor).1
          obtain ⟨a, ha⟩ : ∃ a, headers[k]? = some a := ⟨_, List.getElem?_eq_getElem (by omega)⟩
          have hparent := (hserved.linked k a cursor ha hcursor).1
          obtain ⟨j, older, hj, holder, hlast⟩ := top_pointer hserved hcursor
          have hlater : ¬ (cursor.hash = genesisBlock.hash ∧ cursor.parents = []) := by
            intro hgen
            rw [hgen.2] at hparent
            cases hparent
          obtain ⟨hops, hwalk, hfrom⟩ := ih j hj holder (show j < fuel by omega)
          refine ⟨cursor :: hops, ?_, hfrom.cons hcursor holder hj (List.mem_of_getLast? hlast)⟩
          rw [if_neg hlater, hlast]
          dsimp only
          rw [hplain.find_hash holder]
          simp only [Option.bind_eq_bind, Option.bind_some, hplain.stripped j older holder, hwalk]
          rfl

/-- A built proof: the last headers, and a way down from the header before them. -/
structure BuiltFrom (headers : List Block) (w split : Nat) (p : MultiLevelPruningProof) : Prop where
  length : headers.length = split + 1 + w
  recent : p.recentHeaders = headers.drop (split + 1)
  hops : HopsFrom headers split p.hops
  unclaimed : p.claimedVerifiedWork = none

theorem build_eq (hserved : ChainState.Served now headers) (hplain : Plain headers) {w : Nat}
    {p : MultiLevelPruningProof} (hw : 1 ≤ w) (hbuild : build headers w = some p) :
    ∃ split, BuiltFrom headers w split p := by
  unfold build at hbuild
  rw [max_eq_left hw] at hbuild
  dsimp only at hbuild
  split at hbuild
  next => cases hbuild
  next hsplit =>
    have hpos : headers.length - w ≠ 0 := by
      intro hzero
      rw [hzero] at hsplit
      simp at hsplit
    obtain ⟨split, hsplit⟩ := Nat.exists_eq_succ_of_ne_zero hpos
    rw [hsplit, Nat.succ_sub_one] at hbuild
    obtain ⟨cursor, hcursor, hbuild⟩ := Option.bind_eq_some_iff.mp hbuild
    obtain ⟨hops, hwalk, hbuild⟩ := Option.bind_eq_some_iff.mp hbuild
    obtain rfl := Option.some.inj hbuild
    rw [hplain.stripped split cursor hcursor] at hwalk
    obtain ⟨hops', hwalk', hfrom⟩ := hopWalk_hopsFrom hserved hplain split.succ hcursor
      (List.getElem?_eq_some_iff.mp hcursor).1
    obtain rfl := Option.some.inj (hwalk.symm.trans hwalk')
    refine ⟨split, by omega, ?_, hfrom, rfl⟩
    change (headers.drop split.succ).map Block.headerOnly = headers.drop (split + 1)
    refine (List.map_congr_left fun b hb => ?_).trans (List.map_id _)
    obtain ⟨i, hi⟩ := List.mem_iff_getElem?.mp (List.mem_of_mem_drop hb)
    exact hplain.stripped i b hi

/-- The builder returns a proof of every chain longer than the window. -/
theorem exists_build (hserved : ChainState.Served now headers) (hplain : Plain headers) {w : Nat}
    (hw : 1 ≤ w) (hlen : w < headers.length) : ∃ p, build headers w = some p := by
  obtain ⟨cursor, hcursor⟩ : ∃ b, headers[headers.length - w - 1]? = some b :=
    ⟨_, List.getElem?_eq_getElem (by omega)⟩
  obtain ⟨hops, hwalk, -⟩ := hopWalk_hopsFrom hserved hplain (headers.length - w) hcursor
    (List.getElem?_eq_some_iff.mp hcursor).1
  have hne : headers ≠ [] := by
    rintro rfl
    cases hlen
  have hsplit : (headers.isEmpty || headers.length - w == 0) = false := by
    simp only [List.isEmpty_eq_false_iff.mpr hne, Bool.false_or, beq_eq_false_iff_ne]
    omega
  refine ⟨⟨(headers.drop (headers.length - w)).map Block.headerOnly, hops, none⟩, ?_⟩
  unfold build
  rw [max_eq_left hw]
  dsimp only
  rw [hsplit]
  simp only [Bool.false_eq_true, if_false, hcursor, Option.bind_eq_bind, Option.bind_some,
    hplain.stripped _ cursor hcursor, hwalk]
  rfl

/-- Along served headers timestamps do not go down. -/
theorem served_times (hserved : ChainState.Served now headers) {i j : Nat} {a b : Block} (hij : i ≤ j)
    (ha : headers[i]? = some a) (hb : headers[j]? = some b) : a.timestamp ≤ b.timestamp := by
  induction j generalizing b with
  | zero =>
      obtain rfl : i = 0 := by omega
      rw [Option.some.inj (ha.symm.trans hb)]
      exact UInt64.le_refl _
  | succ j ih =>
      rcases Nat.lt_or_eq_of_le hij with hlt | rfl
      · have hj := (List.getElem?_eq_some_iff.mp hb).1
        obtain ⟨c, hc⟩ : ∃ c, headers[j]? = some c := ⟨_, List.getElem?_eq_getElem (by omega)⟩
        exact UInt64.le_trans (ih (by omega) hc) (hserved.linked j c b hc hb).2.2
      · rw [Option.some.inj (ha.symm.trans hb)]
        exact UInt64.le_refl _

/-- The hops of a way down are distinct: each is at a lower position. -/
theorem HopsFrom.nodup (hcharted : Charted headers) {k : Nat} {hops : List Block}
    (h : HopsFrom headers k hops) : (hops.map (·.hash)).Nodup := by
  have hsorted : (hops.map (·.height.toNat)).Pairwise (· > ·) := by
    rw [← List.isChain_iff_pairwise, List.isChain_iff_getElem]
    intro i hi
    rw [List.length_map] at hi
    simp only [List.getElem_map]
    obtain ⟨j, j', hcur, holder, hlt, -⟩ := h.step i hops[i] hops[i + 1]
      (List.getElem?_eq_getElem (by omega)) (List.getElem?_eq_getElem hi)
    rw [hcharted.height j _ hcur, hcharted.height j' _ holder]
    exact hlt
  rw [List.pairwise_map] at hsorted
  rw [List.Nodup, List.pairwise_map]
  refine List.Pairwise.imp_of_mem (fun {a b} ha hb hgt heq => ?_) hsorted
  obtain ⟨i, -, hi⟩ := h.mem a ha
  obtain ⟨j, -, hj⟩ := h.mem b hb
  have := hcharted.distinct i j a b hi hj heq
  rw [hcharted.height i a hi, hcharted.height j b hj] at hgt
  omega

/-- A hop before the last one is not genesis. -/
theorem HopsFrom.later {k : Nat} {hops : List Block} (h : HopsFrom headers k hops) {i : Nat} {cur : Block}
    (hi : i + 1 < hops.length) (hcur : hops[i]? = some cur) : ∃ (j : Nat), headers[j + 1]? = some cur := by
  obtain ⟨j, j', hj, -, hlt, -⟩ := h.step i cur _ hcur (List.getElem?_eq_getElem hi)
  obtain ⟨j, rfl⟩ := Nat.exists_eq_succ_of_ne_zero (by omega : j ≠ 0)
  exact ⟨j, hj⟩

/-- A proof built of charted headers at the floor is well-formed. -/
theorem BuiltFrom.structured (hserved : ChainState.Served now headers) (hcharted : Charted headers)
    (hfloor : AtFloor headers) {w split : Nat} {p : MultiLevelPruningProof}
    (hbuilt : BuiltFrom headers w split p) (hw : 1 ≤ w) (hw' : w ≤ maxMultilevelRecent)
    (hhops : p.hops.length ≤ maxMultilevelHops) :
    ∃ boundary, p.Structured boundary genesisBlock.headerOnly := by
  have hlen := hbuilt.length
  obtain ⟨boundary, hboundary⟩ : ∃ b, headers[split]? = some b := ⟨_, List.getElem?_eq_getElem (by omega)⟩
  have hget : ∀ {i : Nat} {b : Block}, p.recentHeaders[i]? = some b → headers[split + 1 + i]? = some b := by
    intro i b hb
    rwa [hbuilt.recent, List.getElem?_drop] at hb
  refine ⟨boundary, hhops, ?_, ?_, hbuilt.hops.first.trans hboundary, hbuilt.hops.last.trans hserved.genesis,
    ⟨rfl, rfl, rfl⟩, fun i hop hhop => ⟨?_, fun older holder => ?_⟩, fun i cur hcur => ⟨?_, ?_, ?_, ?_⟩, ?_,
    hbuilt.hops.nodup hcharted, ?_, ?_⟩
  · rw [hbuilt.recent, List.length_drop]
    omega
  · rw [← List.length_pos_iff, hbuilt.recent, List.length_drop]
    omega
  · have hi := (List.getElem?_eq_some_iff.mp hhop).1
    rcases Nat.lt_or_ge (i + 1) p.hops.length with hlt | hge
    · obtain ⟨j, hj⟩ := hbuilt.hops.later hlt hhop
      exact Or.inr (hfloor j hop hj).ge
    · exact Or.inl (by omega)
  · obtain ⟨j, j', hj, hj', hlt, -⟩ := hbuilt.hops.step i hop older hhop holder
    refine ⟨?_, served_times hserved hlt.le hj' hj⟩
    rw [UInt64.lt_iff_toNat_lt, hcharted.height j hop hj, hcharted.height j' older hj']
    exact hlt
  · have hcur' := hget hcur
    rw [Nat.add_right_comm] at hcur'
    exact (hfloor (split + i) cur hcur').ge
  · have hlt := cur.height.toNat_lt
    have hheight := hcharted.height _ cur (hget hcur)
    rw [hcharted.height split boundary hboundary, min_eq_left]
    · exact hheight
    · unfold u64Max
      omega
  · rintro rfl
    exact served_times hserved (by omega) hboundary (hget hcur)
  · intro before hi hbefore
    have hbefore' := hget hbefore
    have hcur' := hget hcur
    rw [show split + 1 + i = split + 1 + (i - 1) + 1 by omega] at hcur'
    obtain ⟨hparent, -, htime⟩ := hserved.linked _ before cur hbefore' hcur'
    exact ⟨hparent, htime⟩
  · intro first hfirst
    exact (hserved.linked split boundary first hboundary (hget hfirst)).1
  · rw [List.Nodup, List.pairwise_map, List.pairwise_iff_getElem]
    intro i j hi hj hij heq
    have := hcharted.distinct _ _ _ _ (hget (List.getElem?_eq_getElem hi)) (hget (List.getElem?_eq_getElem hj)) heq
    omega
  · intro b hb c hc heq
    obtain ⟨i, hi, hbi⟩ := hbuilt.hops.mem b hb
    obtain ⟨j, hj⟩ := List.mem_iff_getElem?.mp hc
    have := hcharted.distinct _ _ b c hbi (hget hj) heq
    omega

theorem BuiltFrom.floorWork (hserved : ChainState.Served now headers) (hfloor : AtFloor headers)
    {w split : Nat} {p : MultiLevelPruningProof} (hbuilt : BuiltFrom headers w split p)
    (hgenesis : verifyPow genesisBlock.hash genesisBlock.difficulty = true) :
    FloorWork now p genesisBlock.headerOnly := by
  refine ⟨hgenesis, rfl, fun i cur hi hcur => ?_, fun i cur older hcur holder => ?_, fun i cur hcur => ?_,
    hbuilt.unclaimed⟩
  · obtain ⟨j, hj⟩ := hbuilt.hops.later hi hcur
    exact ⟨hfloor j cur hj, (hserved.worked j cur hj).1⟩
  · obtain ⟨_, _, -, -, -, hlink⟩ := hbuilt.hops.step i cur older hcur holder
    exact hlink
  · rw [hbuilt.recent, List.getElem?_drop, Nat.add_right_comm] at hcur
    obtain ⟨hpow, hdrift⟩ := hserved.worked _ cur hcur
    exact ⟨hfloor _ cur hcur, hpow, hdrift⟩

end Hops

end MultiLevelPruningProof

/-! ### Runs -/

namespace ChainState

variable [Crypto]

/-- `ChainState::build_multilevel_pruning_proof`: the multi-level proof of the
headers that `build_pruning_proof` serves. -/
def buildMultilevelPruningProof (st : ChainState) (recentWindow : Nat) : Option MultiLevelPruningProof := do
  let headers ← st.buildPruningProof
  MultiLevelPruningProof.build headers recentWindow

/-- On an archival node the chain of the selected tip goes through the positions. -/
theorem positions_selectedChain (easy : Bool) (seed : Ledger) (calls : List (Env × Block)) {tip h : Hash}
    {i : Nat} (htip : tip ∈ ((seeded easy true seed).run calls).dag)
    (hh : (((seeded easy true seed).run calls).ghostdag.selectedChain tip)[i]? = some h) :
    (seeded easy true seed).positions calls h = i := by
  have w := (Archival.run easy seed calls).whole
  induction i generalizing h with
  | zero =>
      rw [w.head_selectedChain htip] at hh
      rw [← Option.some.inj hh, positions_genesis]
  | succ i ih =>
      have hlt := (List.getElem?_eq_some_iff.mp hh).1
      obtain ⟨p, hp⟩ : ∃ p, (((seeded easy true seed).run calls).ghostdag.selectedChain tip)[i]? = some p :=
        ⟨_, List.getElem?_eq_getElem (by omega)⟩
      rw [positions_spOf easy true seed calls (selectedChain_links w.dagInv.descends hp hh), ih hp]

/-- The headers of a proof by their positions. -/
theorem positions_run (easy : Bool) (seed : Ledger) {calls : List (Env × Block)} {pp : Hash}
    {headers : List Block}
    (hbuild : (((seeded easy true seed).run calls).atPoint pp).buildPruningProof = some headers)
    {i : Nat} {b : Block} (hb : headers[i]? = some b) : ∃ b₀ : Block,
      ((seeded easy true seed).run calls).dag[b.hash]? = some b₀ ∧ b = b₀.headerOnly ∧
        (seeded easy true seed).positions calls b.hash = i := by
  have w := (Archival.run easy seed calls).whole
  obtain ⟨tip, hbuilt⟩ := buildPruningProof_eq (w.of_core (atPoint_core _ pp)) rfl hbuild
  obtain ⟨h, b₀, hh, hb₀, rfl⟩ := hbuilt.blocks i b hb
  have hpos := positions_selectedChain easy seed calls (w.tip_mem hbuilt.selected) hh
  rw [Block.hash_headerOnly, w.dagInv.keyed hb₀]
  exact ⟨b₀, hb₀, rfl, hpos⟩

theorem plain_run (easy : Bool) (seed : Ledger) {calls : List (Env × Block)} {pp : Hash}
    {headers : List Block}
    (hbuild : (((seeded easy true seed).run calls).atPoint pp).buildPruningProof = some headers) :
    MultiLevelPruningProof.Plain headers := by
  refine ⟨fun i j a b ha hb heq => ?_, fun i b hb => ?_⟩
  · obtain ⟨_, -, -, hposa⟩ := positions_run easy seed hbuild ha
    obtain ⟨_, -, -, hposb⟩ := positions_run easy seed hbuild hb
    rw [← hposa, ← hposb, heq]
  · obtain ⟨b₀, -, rfl, -⟩ := positions_run easy seed hbuild hb
    rfl

/-- Where every block carries its position, so do the headers of a proof. -/
theorem charted_run (easy : Bool) (seed : Ledger) {calls : List (Env × Block)} {pp : Hash}
    {headers : List Block} (hplaced : AllCalls (seeded easy true seed).PlacedHeight calls)
    (hbuild : (((seeded easy true seed).run calls).atPoint pp).buildPruningProof = some headers) :
    MultiLevelPruningProof.Charted headers := by
  refine ⟨plain_run easy seed hbuild, fun i b hb => ?_⟩
  obtain ⟨b₀, hb₀, heq, hpos⟩ := positions_run easy seed hbuild hb
  have hheight : b.height = b₀.height := by
    rw [heq]
    rfl
  rw [hheight]
  exact (placed_run easy true seed hplaced _ b₀ hb₀).trans hpos

/-- **Multi-level proofs of an archival node.** In a run whose blocks carry their
positions and were all asked for the floor, the multi-level proof of a pruning
point verifies exactly when the verifier's rules stay at the floor along it. -/
theorem multilevel_proof_verifies_iff_paced (easy easy' : Bool) (seed : Ledger) (now : Nat)
    (calls : List (Env × Block)) (pp : Hash) (w : Nat) (p : MultiLevelPruningProof)
    (hgenesis : verifyPow genesisBlock.hash genesisBlock.difficulty = true)
    (hclock : AllCalls (ClockedBy now) calls)
    (hplaced : AllCalls (seeded easy true seed).PlacedHeight calls)
    (hfloor : AllCalls (seeded easy true seed).FloorDemanded calls)
    (hw : 1 ≤ w) (hw' : w ≤ maxMultilevelRecent)
    (hbuild : (((seeded easy true seed).run calls).atPoint pp).buildMultilevelPruningProof w = some p)
    (hhops : p.hops.length ≤ maxMultilevelHops) :
    (∃ s, p.verify easy' now = .ok s ∧ s.pruningPoint = pp) ↔ p.Paced easy' := by
  obtain ⟨headers, hheaders, hbuild⟩ := Option.bind_eq_some_iff.mp hbuild
  obtain ⟨hserved, hlast, hblocks⟩ := served_run easy seed hclock hheaders
  have hcharted := charted_run easy seed hplaced hheaders
  have hatFloor := atFloor_run easy seed hfloor hblocks
  obtain ⟨split, hbuilt⟩ := MultiLevelPruningProof.build_eq hserved hcharted.toPlain hw hbuild
  obtain ⟨boundary, hstructured⟩ := hbuilt.structured hserved hcharted hatFloor hw hw' hhops
  have hwork := hbuilt.floorWork hserved hatFloor hgenesis
  constructor
  · rintro ⟨s, hok, -⟩
    exact MultiLevelPruningProof.paced_of_verify hwork hok
  · intro hpaced
    refine MultiLevelPruningProof.verify_of_paced hstructured hwork hpaced ?_
    have hlen := hbuilt.length
    rw [hbuilt.recent, List.getLast?_drop, if_neg (by omega)]
    exact hlast

end ChainState

namespace Sample

open ChainState (AllCalls ClockedBy)

/-! ### A chain that skips a height -/

/-- A plan is built by calls at one clock. -/
theorem exists_calls (plan : List (List Nat)) : ∃ calls, AllCalls (ClockedBy env.now) calls ∧
    (ChainState.seeded false true {}).run calls = built true plan := by
  induction plan using List.reverseRecOn with
  | nil => exact ⟨[], fun k call hk => (by cases hk), rfl⟩
  | append_singleton plan numbers ih =>
      obtain ⟨calls, hclock, hcalls⟩ := ih
      refine ⟨calls ++ [(env, mined (built true plan) (hashes numbers) (plan.length + 1) 0)],
        ChainState.allCalls_concat.mpr ⟨hclock, le_refl env.now⟩, ?_⟩
      rw [ChainState.run_concat, hcalls, built_append]

/-- Two blocks on genesis and a third on the second. -/
def skipping : List (List Nat) := [[0], [0], [2]]

theorem followed_skipping : Followed true skipping (built true skipping) :=
  followed true (by decide) (planned_of_short (by decide) (by decide))

theorem selectedTip_skipping : (built true skipping).selectedTip = some (blockHash 3 0) := by
  have f := followed_skipping
  have w := f.numbered.whole
  have hplan : Planned skipping := planned_of_short (by decide) (by decide)
  obtain ⟨tip, htip⟩ := w.selected
  have hbest := ChainState.selectedTip_isBest htip
  obtain ⟨hdag, hchildless⟩ := (w.tips tip).mp hbest.mem
  obtain ⟨i, hi, rfl⟩ := (f.numbered.mem tip).mp hdag
  have hi : i < 4 := hi
  have hone : (built true skipping).ghostdag.scoreOf (blockHash 1 0) = _ := (f.bluesOf_only (i := 0) rfl).2
  have htwo : (built true skipping).ghostdag.scoreOf (blockHash 2 0) = _ := (f.bluesOf_only (i := 1) rfl).2
  have hthree : (built true skipping).ghostdag.scoreOf (blockHash 3 0) = _ := (f.bluesOf_only (i := 2) rfl).2
  interval_cases i
  · exact absurd (by rw [f.parents 0 [0] rfl]; simp [hashes]) (hchildless (blockHash (0 + 1) 0))
  · -- the third block has more blue blocks below it
    have hlast : blockHash 3 0 ∈ (built true skipping).tips := f.tip hplan (by decide) (by decide)
    have hrank := GhostdagMap.score_le_of_rankLe
      (hbest.best _ hlast ((w.dagInv.known _).mpr (f.mem (by decide))))
    omega
  · exact absurd (by rw [f.parents 2 [2] rfl]; simp [hashes]) (hchildless (blockHash (2 + 1) 0))
  · exact htip

/-- **A skipped height**: the second block on genesis was admitted with height 2,
and the verifier asks the header after genesis for height 1. -/
theorem skipped_height_fails_its_proof : ∃ (calls : List (Env × Block)) (pp : Hash) (w : Nat)
    (p : MultiLevelPruningProof) (now : Nat), AllCalls (ClockedBy now) calls ∧ 1 ≤ w ∧
    w ≤ maxMultilevelRecent ∧
    (((ChainState.seeded false true {}).run calls).atPoint pp).buildMultilevelPruningProof w = some p ∧
    p.hops.length ≤ maxMultilevelHops ∧ ∀ s, p.verify false now ≠ .ok s := by
  obtain ⟨calls, hclock, hcalls⟩ := exists_calls skipping
  have f : Followed true skipping ((ChainState.seeded false true {}).run calls) := hcalls ▸ followed_skipping
  have w := f.numbered.whole
  have habove : Above ((ChainState.seeded false true {}).run calls).ghostdag.spOf (blockHash 2 0)
      (blockHash 3 0) := .step (f.spOf_only (i := 2) rfl) (.refl _)
  obtain ⟨headers, hbuild⟩ := w.exists_buildPruningProof (hcalls ▸ selectedTip_skipping) habove
  obtain ⟨hserved, hlast, -⟩ := ChainState.served_run false {} hclock hbuild
  have hplain := ChainState.plain_run false {} hbuild
  -- genesis and the second block
  have hpos : (ChainState.seeded false true {}).positions calls (blockHash 2 0) = 1 := by
    rw [ChainState.positions_spOf false true {} calls (f.spOf_only (i := 1) rfl), ← genesis_hash,
      ChainState.positions_genesis]
  obtain ⟨second, hsecond, hhash⟩ := Option.map_eq_some_iff.mp hlast
  rw [List.getLast?_eq_getElem?] at hsecond
  obtain ⟨b₀, hb₀, heq, hplace⟩ := ChainState.positions_run false {} hbuild hsecond
  rw [hhash, hpos] at hplace
  rw [hhash] at hb₀
  have hheight : second.height.toNat = 2 := by
    have htwo : b₀.height.toNat = 2 := f.numbered.height (by decide) hb₀
    rw [heq]
    exact htwo
  obtain ⟨p, hp⟩ := MultiLevelPruningProof.exists_build hserved hplain (le_refl 1) (by omega)
  obtain ⟨split, hbuilt⟩ := MultiLevelPruningProof.build_eq hserved hplain (le_refl 1) hp
  have hlen := hbuilt.length
  obtain rfl : split = 0 := by omega
  have hhops : p.hops.length ≤ maxMultilevelHops := hbuilt.hops.length.trans (by decide)
  refine ⟨calls, blockHash 2 0, 1, p, env.now, hclock, le_refl 1, by decide, ?_, hhops, fun s hs => ?_⟩
  · rw [ChainState.buildMultilevelPruningProof, hbuild]
    exact hp
  · obtain ⟨boundary, _, hstructured⟩ := ((MultiLevelPruningProof.verify_sat false env.now p).2 s hs).structured
    have hboundary := hstructured.newest
    rw [hbuilt.hops.first, hserved.genesis] at hboundary
    have hfirst : p.recentHeaders[0]? = some second := by
      rw [hbuilt.recent, List.getElem?_drop, ← hsecond, ← hplace]
    have hfits := (hstructured.recentFits 0 second hfirst).height
    rw [hheight, ← Option.some.inj hboundary] at hfits
    exact absurd hfits (by decide)

theorem placedHeight_chainCalls {n : Nat} (hn : n ≤ finalityDepth) :
    AllCalls (ChainState.seeded false true {}).PlacedHeight (chainCalls n) := by
  induction n with
  | zero => exact fun k call hk => by cases hk
  | succ n ih =>
      rw [chainCalls]
      refine ChainState.allCalls_concat.mpr ⟨ih (by omega), fun gd sp a => ?_⟩
      have f := followed_chain true (show n ≤ finalityDepth by omega)
      have hfinal : finalityDepth = 432000 := rfl
      have hnumbered := f.numbered
      rw [length_chain] at hnumbered
      have hb := planned_chain (n + 1) n [n] (by simp [chain])
      obtain ⟨_, _, _, hhash, hparents, -⟩ := hnumbered.admitted hb (hnumbered.shallow (by omega))
      have hsp := a.isBest.mem
      rw [hparents, hashes, List.map_singleton, List.mem_singleton] at hsp
      subst hsp
      have hplace : (ChainState.seeded false true {}).positions (chainCalls n) (blockHash n 0) = n := by
        have htip : blockHash n 0 ∈ ((ChainState.seeded false true {}).run (chainCalls n)).dag := by
          rw [run_chainCalls]
          exact f.mem (by rw [length_chain])
        refine ChainState.positions_selectedChain false {} (chainCalls n) htip ?_
        rw [run_chainCalls]
        exact (selectedChain_chain f (le_refl n) (le_refl n)).1
      rw [hplace]
      rw [hash_eq] at hhash
      exact (blockHash_inj (UInt64.toNat_lt _) (UInt64.toNat_lt _) (by omega) (by omega) hhash).1

/-- The multi-level proof of a chain of two blocks, with one of them in full. -/
theorem multilevel_proof_verifies_second : ∃ (calls : List (Env × Block)) (p : MultiLevelPruningProof),
    verifyPow genesisBlock.hash genesisBlock.difficulty = true ∧ AllCalls (ClockedBy env.now) calls ∧
    AllCalls (ChainState.seeded false true {}).PlacedHeight calls ∧
    AllCalls (ChainState.seeded false true {}).FloorDemanded calls ∧
    (((ChainState.seeded false true {}).run calls).atPoint (blockHash 2 0)).buildMultilevelPruningProof 1
      = some p ∧ p.hops.length ≤ maxMultilevelHops ∧
    ((∃ s, p.verify false env.now = .ok s ∧ s.pruningPoint = blockHash 2 0) ↔ p.Paced false) := by
  obtain ⟨headers, hbuild, hlen, -⟩ := exists_proof_chain (n := 2) (by decide)
  have hclock := clockedBy_chainCalls 2
  have hplaced := placedHeight_chainCalls (n := 2) (by decide)
  have hfloor := floorDemanded_chainCalls (n := 2) (by decide)
  have hgenesis : verifyPow genesisBlock.hash genesisBlock.difficulty = true :=
    genesis_hash ▸ verifyPow_blockHash 0 0 (by decide) (by decide) _
  obtain ⟨hserved, -, -⟩ := ChainState.served_run false {} hclock hbuild
  have hplain := ChainState.plain_run false {} hbuild
  obtain ⟨p, hp⟩ := MultiLevelPruningProof.exists_build hserved hplain (le_refl 1) (by omega)
  obtain ⟨split, hbuilt⟩ := MultiLevelPruningProof.build_eq hserved hplain (le_refl 1) hp
  have hhops : p.hops.length ≤ maxMultilevelHops := by
    refine hbuilt.hops.length.trans ?_
    have := hbuilt.length
    unfold maxMultilevelHops
    omega
  have hproof : (((ChainState.seeded false true {}).run (chainCalls 2)).atPoint
      (blockHash 2 0)).buildMultilevelPruningProof 1 = some p := by
    rw [ChainState.buildMultilevelPruningProof, hbuild]
    exact hp
  exact ⟨chainCalls 2, p, hgenesis, hclock, hplaced, hfloor, hproof, hhops,
    ChainState.multilevel_proof_verifies_iff_paced false false {} env.now _ _ 1 p hgenesis hclock hplaced
      hfloor (le_refl 1) (by decide) hproof hhops⟩

end Sample

end HassanNode
