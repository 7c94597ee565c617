import Mathlib
import HassanNode.Lib.Map
import HassanNode.Ledger.RegistrySound

/-!
# HassanNode.Ledger.Titles

Titles and escrows stay consistent (`registry.rs`). The two maps of the registry
refer to each other: a title names the escrow that locks it, an escrow the title
it holds. `RegistryState.Consistent` says that they agree, that the money of
every escrow fits its status and that the history of every title is a chain up
to its owner. Every successful operation keeps it and an escrow that is closed
stays as it is, so both hold along every sequence of operations.
-/

namespace HassanNode

open Std (ExtTreeMap)

/-! ### The invariant -/

namespace EscrowAccount

/-- The escrow holds its title. -/
def Live (esc : EscrowAccount) : Prop := esc.status = .open_ ∨ esc.status = .funded

/-- The escrow is settled. -/
def Closed (esc : EscrowAccount) : Prop := esc.status = .released ∨ esc.status = .refunded

/-- The money of an escrow fits its status. -/
structure Sound (esc : EscrowAccount) : Prop where
  bounded : esc.funded ≤ u128Max
  funded : esc.status = .funded → esc.amount ≤ esc.funded ∧ 0 < esc.amount
  open_ : esc.status = .open_ → esc.funded < esc.amount
  closed : esc.Closed → esc.funded = 0

theorem Live.not_closed {esc : EscrowAccount} (h : esc.Live) : ¬ esc.Closed := by
  rintro (hclosed | hclosed) <;> rcases h with hlive | hlive <;> simp [hclosed] at hlive

end EscrowAccount

/-- The events of a title form a chain that ends with its owner. -/
structure TitleDeed.Traced (deed : TitleDeed) : Prop where
  chain : deed.history.IsChain fun e e' => e'.from_ = some e.to_
  owner : deed.history.getLast?.map TitleEvent.to_ = some deed.currentOwner

theorem TitleDeed.Traced.nonempty {deed : TitleDeed} (h : deed.Traced) : deed.history ≠ [] := by
  intro hnil
  have := h.owner
  simp [hnil] at this

/-- A move of ownership extends the chain. -/
theorem TitleDeed.Traced.moveTo {deed : TitleDeed} (h : deed.Traced) (ctx : RegistryCtx) (event : Bytes)
    (to_ : Address) (memo : Bytes) : (deed.moveTo ctx event to_ memo).Traced := by
  constructor
  · refine List.isChain_append.mpr ⟨h.chain, List.isChain_singleton _, ?_⟩
    intro e he e' he'
    have howner := h.owner
    rw [Option.mem_def.mp he] at howner
    cases he'
    exact howner.symm
  · simp [TitleDeed.moveTo]

/-- **Titles and escrows agree.** -/
structure RegistryState.Consistent (r : RegistryState) : Prop where
  /-- A title that an escrow names exists. -/
  named : ∀ (e : Hash) (esc : EscrowAccount) (tid : Hash), r.escrows[e]? = some esc →
    esc.titleId = some tid → tid ∈ r.titles
  locked : ∀ (tid : Hash) (deed : TitleDeed), r.titles[tid]? = some deed → ∀ e : Hash,
    deed.escrowId = some e ↔ ∃ esc : EscrowAccount, r.escrows[e]? = some esc ∧ esc.Live ∧ esc.titleId = some tid
  owner : ∀ (tid : Hash) (deed : TitleDeed) (e : Hash) (esc : EscrowAccount), r.titles[tid]? = some deed →
    deed.escrowId = some e → r.escrows[e]? = some esc → deed.currentOwner = esc.seller
  sound : ∀ (e : Hash) (esc : EscrowAccount), r.escrows[e]? = some esc → esc.Sound
  traced : ∀ (tid : Hash) (deed : TitleDeed), r.titles[tid]? = some deed → deed.Traced

namespace RegistryState.Consistent

open RegistryState

variable {r : RegistryState}

theorem empty : RegistryState.Consistent {} where
  named e esc tid h := by simp at h
  locked tid deed h := by simp at h
  owner tid deed e esc h := by simp at h
  sound e esc h := by simp at h
  traced tid deed h := by simp at h

/-- No two live escrows name the same title. -/
theorem unique (h : r.Consistent) {e e' tid : Hash} {esc esc' : EscrowAccount}
    (hesc : r.escrows[e]? = some esc) (hlive : esc.Live) (htid : esc.titleId = some tid)
    (hesc' : r.escrows[e']? = some esc') (hlive' : esc'.Live) (htid' : esc'.titleId = some tid) : e = e' := by
  obtain ⟨deed, hdeed⟩ := Option.isSome_iff_exists.mp
    (ExtTreeMap.mem_iff_isSome_getElem?.mp (h.named e esc tid hesc htid))
  have hlock := (h.locked tid deed hdeed e).mpr ⟨esc, hesc, hlive, htid⟩
  have hlock' := (h.locked tid deed hdeed e').mpr ⟨esc', hesc', hlive', htid'⟩
  exact Option.some.inj (hlock.symm.trans hlock')

/-- A title without a lock can change hands. -/
theorem insert_title (h : r.Consistent) {tid : Hash} {deed : TitleDeed} (hfree : deed.escrowId = none)
    (htraced : deed.Traced) (hunlocked : ∀ (e : Hash) (esc : EscrowAccount), r.escrows[e]? = some esc →
      esc.Live → esc.titleId ≠ some tid) :
    RegistryState.Consistent { r with titles := r.titles.insert tid deed } where
  named e esc t hesc ht := ExtTreeMap.mem_insert.mpr (Or.inr (h.named e esc t hesc ht))
  locked t d hd e := by
    rcases Map.insert_eq_some.mp hd with ⟨rfl, rfl⟩ | ⟨-, hd⟩
    · simp only [hfree, reduceCtorEq, false_iff]
      rintro ⟨esc, hesc, hlive, ht⟩
      exact hunlocked e esc hesc hlive ht
    · exact h.locked t d hd e
  owner t d e esc hd hlock hesc := by
    rcases Map.insert_eq_some.mp hd with ⟨rfl, rfl⟩ | ⟨-, hd⟩
    · rw [hfree] at hlock
      cases hlock
    · exact h.owner t d e esc hd hlock hesc
  sound := h.sound
  traced t d hd := by
    rcases Map.insert_eq_some.mp hd with ⟨rfl, rfl⟩ | ⟨-, hd⟩
    · exact htraced
    · exact h.traced t d hd

/-- An escrow whose title and parties stay can change its money, as long as it
stays live. -/
theorem insert_escrow (h : r.Consistent) {e : Hash} {esc esc' : EscrowAccount} (hesc : r.escrows[e]? = some esc)
    (hlive : esc.Live) (hlive' : esc'.Live) (htitle : esc'.titleId = esc.titleId) (hseller : esc'.seller = esc.seller)
    (hsound : esc'.Sound) : RegistryState.Consistent { r with escrows := r.escrows.insert e esc' } where
  named e₁ esc₁ t hesc₁ ht := by
    rcases Map.insert_eq_some.mp hesc₁ with ⟨rfl, rfl⟩ | ⟨-, hesc₁⟩
    · exact h.named e esc t hesc (htitle.symm.trans ht)
    · exact h.named e₁ esc₁ t hesc₁ ht
  locked t d hd e₁ := by
    rw [h.locked t d hd e₁]
    constructor
    · rintro ⟨esc₁, hesc₁, hlive₁, ht⟩
      by_cases heq : e = e₁
      · subst heq
        obtain rfl := Option.some.inj (hesc.symm.trans hesc₁)
        exact ⟨esc', Map.insert_eq_some.mpr (Or.inl ⟨rfl, rfl⟩), hlive', htitle.trans ht⟩
      · exact ⟨esc₁, Map.insert_eq_some.mpr (Or.inr ⟨heq, hesc₁⟩), hlive₁, ht⟩
    · rintro ⟨esc₁, hesc₁, hlive₁, ht⟩
      rcases Map.insert_eq_some.mp hesc₁ with ⟨rfl, rfl⟩ | ⟨-, hesc₁⟩
      · exact ⟨esc, hesc, hlive, htitle.symm.trans ht⟩
      · exact ⟨esc₁, hesc₁, hlive₁, ht⟩
  owner t d e₁ esc₁ hd hlock hesc₁ := by
    rcases Map.insert_eq_some.mp hesc₁ with ⟨rfl, rfl⟩ | ⟨-, hesc₁⟩
    · rw [hseller]
      exact h.owner t d e esc hd hlock hesc
    · exact h.owner t d e₁ esc₁ hd hlock hesc₁
  sound e₁ esc₁ hesc₁ := by
    rcases Map.insert_eq_some.mp hesc₁ with ⟨rfl, rfl⟩ | ⟨-, hesc₁⟩
    · exact hsound
    · exact h.sound e₁ esc₁ hesc₁
  traced := h.traced

/-- A new escrow may lock a free title of its seller. -/
theorem open_escrow (h : r.Consistent) {e : Hash} {esc : EscrowAccount} (hfresh : e ∉ r.escrows)
    (hlive : esc.Live) (hsound : esc.Sound)
    (htitle : ∀ tid, esc.titleId = some tid → ∃ deed, r.titles[tid]? = some deed ∧
      deed.currentOwner = esc.seller ∧ deed.escrowId = none) :
    RegistryState.Consistent { titles := lockTitle r.titles e esc.titleId, escrows := r.escrows.insert e esc } := by
  have hnone : r.escrows[e]? = none := by
    rw [ExtTreeMap.mem_iff_isSome_getElem?, Option.not_isSome_iff_eq_none] at hfresh
    exact hfresh
  have htitles : ∀ {t d}, (lockTitle r.titles e esc.titleId)[t]? = some d →
      (∃ d₀, esc.titleId = some t ∧ r.titles[t]? = some d₀ ∧ d₀.currentOwner = esc.seller ∧
        d₀.escrowId = none ∧ d = { d₀ with escrowId := some e }) ∨
      esc.titleId ≠ some t ∧ r.titles[t]? = some d := by
    intro t d hd
    rw [lockTitle, getElem?_updateTitle] at hd
    split at hd
    · rename_i ht
      obtain ⟨d₀, hd₀, howner, hfree⟩ := htitle t ht
      rw [hd₀] at hd
      exact Or.inl ⟨d₀, ht, hd₀, howner, hfree, (Option.some.inj hd).symm⟩
    · exact Or.inr ⟨‹_›, hd⟩
  constructor
  · intro e₁ esc₁ t hesc₁ ht
    have hold : t ∈ r.titles := by
      rcases Map.insert_eq_some.mp hesc₁ with ⟨rfl, rfl⟩ | ⟨-, hesc₁⟩
      · obtain ⟨d, hd, -⟩ := htitle t ht
        exact Map.mem_of_getElem? hd
      · exact h.named e₁ esc₁ t hesc₁ ht
    obtain ⟨d, hd⟩ := Option.isSome_iff_exists.mp (ExtTreeMap.mem_iff_isSome_getElem?.mp hold)
    rw [ExtTreeMap.mem_iff_isSome_getElem?, lockTitle, getElem?_updateTitle, hd]
    split <;> rfl
  · intro t d hd e₁
    rcases htitles hd with ⟨d₀, ht, hd₀, -, hfree, rfl⟩ | ⟨ht, hd⟩
    · constructor
      · intro hlock
        obtain rfl := Option.some.inj hlock
        exact ⟨esc, Map.insert_eq_some.mpr (Or.inl ⟨rfl, rfl⟩), hlive, ht⟩
      · rintro ⟨esc₁, hesc₁, hlive₁, ht₁⟩
        rcases Map.insert_eq_some.mp hesc₁ with ⟨rfl, -⟩ | ⟨-, hesc₁⟩
        · rfl
        · -- the title was free, so nobody else holds it
          have hlock := (h.locked t d₀ hd₀ e₁).mpr ⟨esc₁, hesc₁, hlive₁, ht₁⟩
          rw [hfree] at hlock
          cases hlock
    · rw [h.locked t d hd e₁]
      constructor
      · rintro ⟨esc₁, hesc₁, hlive₁, ht₁⟩
        refine ⟨esc₁, Map.insert_eq_some.mpr (Or.inr ⟨?_, hesc₁⟩), hlive₁, ht₁⟩
        rintro rfl
        rw [hnone] at hesc₁
        cases hesc₁
      · rintro ⟨esc₁, hesc₁, hlive₁, ht₁⟩
        rcases Map.insert_eq_some.mp hesc₁ with ⟨-, rfl⟩ | ⟨-, hesc₁⟩
        · exact absurd ht₁ ht
        · exact ⟨esc₁, hesc₁, hlive₁, ht₁⟩
  · intro t d e₁ esc₁ hd hlock hesc₁
    rcases htitles hd with ⟨d₀, ht, hd₀, howner, hfree, rfl⟩ | ⟨ht, hd⟩
    · obtain rfl := Option.some.inj hlock
      rcases Map.insert_eq_some.mp hesc₁ with ⟨-, rfl⟩ | ⟨hne, -⟩
      · exact howner
      · exact absurd rfl hne
    · rcases Map.insert_eq_some.mp hesc₁ with ⟨rfl, -⟩ | ⟨-, hesc₁⟩
      · obtain ⟨esc₀, hesc₀, -⟩ := (h.locked t d hd e).mp hlock
        rw [hnone] at hesc₀
        cases hesc₀
      · exact h.owner t d e₁ esc₁ hd hlock hesc₁
  · intro e₁ esc₁ hesc₁
    rcases Map.insert_eq_some.mp hesc₁ with ⟨-, rfl⟩ | ⟨-, hesc₁⟩
    · exact hsound
    · exact h.sound e₁ esc₁ hesc₁
  · intro t d hd
    rcases htitles hd with ⟨d₀, -, hd₀, -, -, rfl⟩ | ⟨-, hd⟩
    · exact ⟨(h.traced t d₀ hd₀).chain, (h.traced t d₀ hd₀).owner⟩
    · exact h.traced t d hd

/-- A live escrow may close, whatever becomes of its title. -/
theorem close (h : r.Consistent) {e : Hash} {esc esc' : EscrowAccount} {f : TitleDeed → TitleDeed}
    (hesc : r.escrows[e]? = some esc) (hlive : esc.Live) (hclosed : esc'.Closed)
    (htitle : esc'.titleId = esc.titleId) (hsound : esc'.Sound)
    (hf : ∀ deed, (f deed).escrowId = none ∧ (deed.Traced → (f deed).Traced)) :
    RegistryState.Consistent { titles := updateTitle r.titles f esc.titleId, escrows := r.escrows.insert e esc' } := by
  have htitles : ∀ {t d}, (updateTitle r.titles f esc.titleId)[t]? = some d →
      (∃ d₀, esc.titleId = some t ∧ r.titles[t]? = some d₀ ∧ d = f d₀) ∨
      esc.titleId ≠ some t ∧ r.titles[t]? = some d := by
    intro t d hd
    rw [getElem?_updateTitle] at hd
    split at hd
    · obtain ⟨d₀, hd₀, rfl⟩ := Option.map_eq_some_iff.mp hd
      exact Or.inl ⟨d₀, ‹_›, hd₀, rfl⟩
    · exact Or.inr ⟨‹_›, hd⟩
  constructor
  · intro e₁ esc₁ t hesc₁ ht
    have hold : t ∈ r.titles := by
      rcases Map.insert_eq_some.mp hesc₁ with ⟨rfl, rfl⟩ | ⟨-, hesc₁⟩
      · exact h.named e esc t hesc (htitle.symm.trans ht)
      · exact h.named e₁ esc₁ t hesc₁ ht
    obtain ⟨d, hd⟩ := Option.isSome_iff_exists.mp (ExtTreeMap.mem_iff_isSome_getElem?.mp hold)
    rw [ExtTreeMap.mem_iff_isSome_getElem?, getElem?_updateTitle, hd]
    split <;> rfl
  · intro t d hd e₁
    rcases htitles hd with ⟨d₀, ht, hd₀, rfl⟩ | ⟨ht, hd⟩
    · simp only [(hf d₀).1, reduceCtorEq, false_iff]
      rintro ⟨esc₁, hesc₁, hlive₁, ht₁⟩
      rcases Map.insert_eq_some.mp hesc₁ with ⟨rfl, rfl⟩ | ⟨hne, hesc₁⟩
      · exact hlive₁.not_closed hclosed
      · exact hne (h.unique hesc hlive ht hesc₁ hlive₁ ht₁)
    · rw [h.locked t d hd e₁]
      constructor
      · rintro ⟨esc₁, hesc₁, hlive₁, ht₁⟩
        refine ⟨esc₁, Map.insert_eq_some.mpr (Or.inr ⟨?_, hesc₁⟩), hlive₁, ht₁⟩
        rintro rfl
        obtain rfl := Option.some.inj (hesc.symm.trans hesc₁)
        exact ht ht₁
      · rintro ⟨esc₁, hesc₁, hlive₁, ht₁⟩
        rcases Map.insert_eq_some.mp hesc₁ with ⟨-, rfl⟩ | ⟨-, hesc₁⟩
        · exact absurd hclosed hlive₁.not_closed
        · exact ⟨esc₁, hesc₁, hlive₁, ht₁⟩
  · intro t d e₁ esc₁ hd hlock hesc₁
    rcases htitles hd with ⟨d₀, -, -, rfl⟩ | ⟨ht, hd⟩
    · rw [(hf d₀).1] at hlock
      cases hlock
    · rcases Map.insert_eq_some.mp hesc₁ with ⟨rfl, -⟩ | ⟨-, hesc₁⟩
      · obtain ⟨esc₀, hesc₀, -, ht₀⟩ := (h.locked t d hd e).mp hlock
        obtain rfl := Option.some.inj (hesc.symm.trans hesc₀)
        exact absurd ht₀ ht
      · exact h.owner t d e₁ esc₁ hd hlock hesc₁
  · intro e₁ esc₁ hesc₁
    rcases Map.insert_eq_some.mp hesc₁ with ⟨-, rfl⟩ | ⟨-, hesc₁⟩
    · exact hsound
    · exact h.sound e₁ esc₁ hesc₁
  · intro t d hd
    rcases htitles hd with ⟨d₀, -, hd₀, rfl⟩ | ⟨-, hd⟩
    · exact (hf d₀).2 (h.traced t d₀ hd₀)
    · exact h.traced t d hd

end RegistryState.Consistent

/-! ### One operation -/

/-- A funded escrow stays sound. -/
theorem EscrowAccount.Sound.fund {esc : EscrowAccount} (h : esc.Sound) (hlive : esc.Live) (amount : Nat) :
    EscrowAccount.Sound { esc with
      funded := satAdd128 esc.funded amount
      status := if satAdd128 esc.funded amount ≥ esc.amount then .funded else esc.status } := by
  have hpos : 0 < esc.amount := by
    rcases hlive with hopen | hfunded
    · exact Nat.lt_of_le_of_lt (Nat.zero_le _) (h.open_ hopen)
    · exact (h.funded hfunded).2
  have hgrow : esc.funded ≤ satAdd128 esc.funded amount := le_min (Nat.le_add_right _ _) h.bounded
  refine ⟨min_le_right _ _, fun hstatus => ⟨?_, hpos⟩, fun hstatus => ?_, fun hclosed => ?_⟩
  · by_contra hless
    simp only [ge_iff_le, if_neg hless] at hstatus
    exact hless ((h.funded hstatus).1.trans hgrow)
  · by_contra hless
    simp [Nat.not_lt.mp hless] at hstatus
  · have hstays : EscrowAccount.Live { esc with
        status := if satAdd128 esc.funded amount ≥ esc.amount then .funded else esc.status } := by
      by_cases hfull : satAdd128 esc.funded amount ≥ esc.amount
      · exact Or.inr (if_pos hfull)
      · have hsame : (if satAdd128 esc.funded amount ≥ esc.amount then .funded else esc.status) = esc.status :=
          if_neg hfull
        exact hlive.imp hsame.trans hsame.trans
    exact absurd hclosed hstays.not_closed

/-- An escrow that pays everything out is sound. -/
theorem EscrowAccount.Sound.settled {esc : EscrowAccount} (hzero : esc.funded = 0) (hclosed : esc.Closed) :
    esc.Sound := by
  refine ⟨hzero ▸ Nat.zero_le _, fun hstatus => ?_, fun hstatus => ?_, fun _ => hzero⟩
  · exact absurd hclosed (EscrowAccount.Live.not_closed (Or.inr hstatus))
  · exact absurd hclosed (EscrowAccount.Live.not_closed (Or.inl hstatus))

section Step

variable [Crypto] {ctx : RegistryCtx} {signer : Address} {r r' : RegistryState} {accounts accounts' : Accounts}
  {action : RegistryAction}

/-- **Step lemma.** A successful arm keeps the registry consistent. -/
theorem RegistryMove.consistent (h : RegistryMove ctx signer r accounts action r' accounts')
    (hr : r.Consistent) : r'.Consistent := by
  cases h with
  | @issue owner cls description seed deed hfresh hlock howner hhistory =>
    obtain ⟨event, hevent, hto⟩ := hhistory
    refine hr.insert_title hlock ⟨?_, ?_⟩ fun e esc hesc _ ht => hfresh (hr.named e esc _ hesc ht)
    · rw [hevent]
      exact List.isChain_singleton event
    · simp [hevent, hto, howner]
  | transfer hdeed howner hlock =>
    refine hr.insert_title hlock ((hr.traced _ _ hdeed).moveTo ctx _ _ _) fun e esc hesc hlive ht => ?_
    have hlocked := (hr.locked _ _ hdeed e).mpr ⟨esc, hesc, hlive, ht⟩
    rw [hlock] at hlocked
    cases hlocked
  | @«open» buyer seller arbiter amount titleId memo seed timeoutBlue esc hpos htitle hfresh hseller hid hzero
      hbuyer hamount hstatus =>
    subst hid hseller
    refine hr.open_escrow hfresh (Or.inl hstatus) ⟨?_, ?_, fun _ => ?_, ?_⟩ htitle
    · exact hzero ▸ Nat.zero_le _
    · intro hfunded
      rw [hstatus] at hfunded
      cases hfunded
    · rw [hzero, hamount]
      exact Nat.pos_of_ne_zero hpos
    · exact fun _ => hzero
  | @fund escrowId amount esc acct status hesc hopen hacct hbal hstatus hbuyer hlevel =>
    subst hlevel
    refine hr.insert_escrow hesc hopen ?_ rfl rfl ((hr.sound _ _ hesc).fund hopen amount)
    rcases hstatus with hfull | hsame
    · exact Or.inr hfull
    · exact hopen.imp hsame.trans hsame.trans
  | @release escrowId esc hesc hfunded hbuyer =>
    refine hr.close hesc (Or.inr hfunded) (Or.inl rfl) rfl (.settled rfl (Or.inl rfl)) fun deed => ⟨rfl, fun hd => ?_⟩
    have hfree : TitleDeed.Traced { deed with escrowId := none } := ⟨hd.chain, hd.owner⟩
    exact hfree.moveTo ctx _ _ _
  | @refund escrowId esc _ haction hesc hopen =>
    exact hr.close hesc hopen (Or.inr rfl) rfl (.settled rfl (Or.inr rfl)) fun deed =>
      ⟨rfl, fun hd => ⟨hd.chain, hd.owner⟩⟩

/-- A closed escrow is not touched. -/
theorem RegistryMove.closed_stays (h : RegistryMove ctx signer r accounts action r' accounts') {e : Hash}
    {esc : EscrowAccount} (hesc : r.escrows[e]? = some esc) (hclosed : esc.Closed) : r'.escrows[e]? = some esc := by
  have hother : ∀ {e₁ esc₁ esc₂}, r.escrows[e₁]? = some esc₁ → esc₁.Live →
      (r.escrows.insert e₁ esc₂)[e]? = some esc := by
    intro e₁ esc₁ esc₂ hesc₁ hlive
    refine Map.insert_eq_some.mpr (Or.inr ⟨?_, hesc⟩)
    rintro rfl
    obtain rfl := Option.some.inj (hesc.symm.trans hesc₁)
    exact hlive.not_closed hclosed
  cases h with
  | issue => exact hesc
  | transfer => exact hesc
  | @«open» buyer seller arbiter amount titleId memo seed timeoutBlue esc₁ hpos htitle hfresh =>
    refine Map.insert_eq_some.mpr (Or.inr ⟨?_, hesc⟩)
    rintro rfl
    exact hfresh (Map.mem_of_getElem? hesc)
  | fund hesc₁ hopen => exact hother hesc₁ hopen
  | release hesc₁ hfunded => exact hother hesc₁ (Or.inr hfunded)
  | refund _ hesc₁ hopen => exact hother hesc₁ hopen

end Step

/-! ### Sequences of operations -/

section Runs

variable [Crypto]

/-- One call of `apply_op`, on any accounts, whether it succeeds or not. -/
def RegistryState.Step (r r' : RegistryState) : Prop :=
  ∃ (accounts : Accounts) (op : RegistryOp) (ctx : RegistryCtx), (r.applyOp accounts op ctx).1.1 = r'

theorem RegistryState.Step.keeps {r r' : RegistryState} (h : r.Step r') :
    (r.Consistent → r'.Consistent) ∧
      ∀ (e : Hash) (esc : EscrowAccount), r.escrows[e]? = some esc → esc.Closed → r'.escrows[e]? = some esc := by
  obtain ⟨accounts, op, ctx, rfl⟩ := h
  rcases applyOp_cases r accounts op ctx with hsame | ⟨-, -, hmove⟩
  · rw [hsame]
    exact ⟨id, fun _ _ hesc _ => hesc⟩
  · exact ⟨hmove.consistent, fun _ _ hesc hclosed => hmove.closed_stays hesc hclosed⟩

/-- **The registry stays consistent** along every sequence of operations from
the empty one: titles and escrows agree, no two live escrows share a title, and
an escrow that is closed never changes again. -/
theorem registry_consistent {r : RegistryState} (hr : Relation.ReflTransGen RegistryState.Step {} r) :
    r.Consistent ∧
    (∀ (e e' tid : Hash) (esc esc' : EscrowAccount), r.escrows[e]? = some esc → esc.Live →
      esc.titleId = some tid → r.escrows[e']? = some esc' → esc'.Live → esc'.titleId = some tid → e = e') ∧
    ∀ r', Relation.ReflTransGen RegistryState.Step r r' → ∀ (e : Hash) (esc : EscrowAccount),
      r.escrows[e]? = some esc → esc.Closed → r'.escrows[e]? = some esc := by
  have hconsistent : r.Consistent := by
    induction hr with
    | refl => exact RegistryState.Consistent.empty
    | tail _ hstep ih => exact hstep.keeps.1 ih
  refine ⟨hconsistent, fun e e' tid esc esc' hesc hlive ht hesc' hlive' ht' => ?_, fun r' hr' e esc hesc hclosed => ?_⟩
  · exact hconsistent.unique hesc hlive ht hesc' hlive' ht'
  · induction hr' with
    | refl => exact hesc
    | tail _ hstep ih => exact hstep.keeps.2 e esc ih hclosed

end Runs

namespace RegistryRun

theorem step_after_single [Crypto] (accounts : Accounts) (call : RegistryCall) :
    RegistryState.Step {} (after accounts [call]).registry := ⟨accounts, call.op, call.ctx, rfl⟩

/-- The registry with one party's title is consistent. -/
theorem registry_consistent_issue : (@after sampleCrypto ∅ [issueOwn]).registry.Consistent := by
  let := sampleCrypto
  exact (registry_consistent (.single (step_after_single ∅ issueOwn))).1

end RegistryRun

end HassanNode
