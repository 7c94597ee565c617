import Mathlib
import HassanNode.Lib.InPlace
import HassanNode.Lib.Fallible
import HassanNode.Core.Address

/-!
# HassanNode.Escrow.Law

The escrow law (`tuep-escrow`): terms, events, and the record of one deal, which
checks every event against the transition table and once more by itself.

What the record is for is the relation `Moves`: a deal is funded once with the agreed
amount, and then pays one party once. `transition` is that relation (`transition_iff`),
an event that is refused leaves the record alone, and so a record always tells the
history of one deal (`EscrowRecord.run_sound`).
-/

namespace HassanNode

namespace TuepEscrow

/-- `BDPE_DOMAIN`. -/
def bdpeDomain : Bytes := utf8 "tuep-bdpe-v1"

inductive EscrowPhase
  | offered | funded | settled | refunded | timedOut | disputed
  deriving DecidableEq

namespace EscrowPhase

def asStr : EscrowPhase → String
  | offered => "offered"
  | funded => "funded"
  | settled => "settled"
  | refunded => "refunded"
  | timedOut => "timed_out"
  | disputed => "disputed"

def isTerminal : EscrowPhase → Bool
  | settled | refunded | timedOut => true
  | _ => false

end EscrowPhase

inductive Party
  | buyer | seller | arbiter
  deriving DecidableEq

inductive Clock
  | absoluteBlue (unlockBlue : Nat)
  deriving DecidableEq

namespace Clock

def unlockBlue : Clock → Nat
  | absoluteBlue unlockBlue => unlockBlue

def reached (clock : Clock) (mediaBlue : Nat) : Bool := decide (clock.unlockBlue ≤ mediaBlue)

end Clock

inductive PayoutVector
  | toSeller | toBuyer
  deriving DecidableEq

/-- `phase1_allowed`: both are. -/
def PayoutVector.phase1Allowed : PayoutVector → Bool
  | toSeller | toBuyer => true

inductive EscrowEvent
  | opened (escrowId : Bytes) (buyer seller : Address) (amount timeoutBlue : Nat) (memo : Bytes)
  | funded (escrowId outpointTxid : Bytes) (outpointVout : UInt32) (amount mediaBlue : Nat)
  | coopSettled (escrowId : Bytes) (payout : PayoutVector) (to_ : Address) (amount : Nat) (spendTxid : Bytes)
  | coopRefunded (escrowId : Bytes) (payout : PayoutVector) (to_ : Address) (amount : Nat) (spendTxid : Bytes)
  | timeoutClaimed (escrowId : Bytes) (payout : PayoutVector) (to_ : Address) (amount : Nat)
      (spendTxid : Bytes) (mediaBlue : Nat)
  | disputeOpened (escrowId : Bytes) (by_ : Party)
  deriving DecidableEq

namespace EscrowEvent

/-- `escrow_id`. -/
def escrowId : EscrowEvent → Bytes
  | opened id .. | funded id .. | coopSettled id .. | coopRefunded id .. | timeoutClaimed id ..
  | disputeOpened id .. => id

/-- The number that the debug form of a discriminant shows. -/
def discriminant : EscrowEvent → Nat
  | opened .. => 0
  | funded .. => 1
  | coopSettled .. => 2
  | coopRefunded .. => 3
  | timeoutClaimed .. => 4
  | disputeOpened .. => 5

end EscrowEvent

/-- What the parties agreed on. -/
structure EscrowTerms where
  buyer : Address
  seller : Address
  amount : Nat
  clock : Clock
  memo : Bytes
  seedHex : Bytes
  deriving DecidableEq

namespace EscrowTerms

def timeoutBlue (terms : EscrowTerms) : Nat := terms.clock.unlockBlue

def validate (terms : EscrowTerms) : Except String Unit := do
  ensure (!(terms.buyer.isEmpty || terms.seller.isEmpty)) "buyer and seller required"
  ensure (terms.buyer != terms.seller) "buyer and seller must differ"
  ensure (terms.amount != 0) "amount must be positive"
  ensure (!terms.seedHex.isEmpty) "seed required"

/-- `derive_id`. -/
def deriveId [Crypto] (terms : EscrowTerms) (opener : Bytes) : Bytes :=
  Address.hexEncode (Crypto.blake3 (bdpeDomain ++ opener ++ terms.buyer ++ terms.seller
    ++ Bincode.u128 terms.amount ++ Bincode.u64 terms.timeoutBlue ++ terms.memo ++ terms.seedHex)).asBytes

end EscrowTerms

structure VaultOutpoint where
  txidHex : Bytes
  vout : UInt32
  deriving DecidableEq

/-- Who authorizes a spend of the vault. -/
inductive SpendPath
  | coop2of2 (payout : PayoutVector)
  | timeoutBuyer
  deriving DecidableEq

def SpendPath.validate (path : SpendPath) (terms : EscrowTerms) (mediaBlue : Nat) : Except String Unit :=
  match path with
  | .coop2of2 payout => ensure payout.phase1Allowed "payout not allowed"
  | .timeoutBuyer => ensure (terms.clock.reached mediaBlue) "timeout not reached"

/-! ### The transition table -/

/-- `assert_payout`. -/
def assertPayout (payout : PayoutVector) (to_ : Address) (terms : EscrowTerms) : Except String Unit := do
  ensure payout.phase1Allowed "payout vector not allowed in Phase 1"
  match payout with
  | .toSeller => ensure (to_ == terms.seller) "ToSeller payout must target seller address"
  | .toBuyer => ensure (to_ == terms.buyer) "ToBuyer payout must target buyer address"

/-- What the table says about a pair of phase and event. -/
def transitionTable (terms : EscrowTerms) : EscrowPhase → EscrowEvent → Except String EscrowPhase
  | .offered, .funded _ _ _ amount _ => do
    ensure (amount == terms.amount) "fund amount mismatch"
    return .funded
  | .funded, .coopSettled _ payout to_ _ _ => do
    ensure (payout == .toSeller) "coop settle requires ToSeller vector"
    ensure (to_ == terms.seller) "settle must pay seller"
    return .settled
  | .funded, .coopRefunded _ payout to_ _ _ => do
    ensure (payout == .toBuyer) "coop refund requires ToBuyer vector"
    ensure (to_ == terms.buyer) "refund must pay buyer"
    return .refunded
  | .funded, .timeoutClaimed _ payout to_ _ _ mediaBlue => do
    ensure (payout == .toBuyer) "timeout claim requires ToBuyer vector"
    ensure (to_ == terms.buyer) "timeout claim must pay buyer"
    ensure (terms.clock.reached mediaBlue) "timeout clock not reached"
    return .timedOut
  | p, e => .error s!"illegal transition from {p.asStr} via Discriminant({e.discriminant})"

/-- `transition`. -/
def transition (phase : EscrowPhase) (event : EscrowEvent) (terms : EscrowTerms) : Except String EscrowPhase :=
  match event with
  | .disputeOpened .. => .error "Phase 1: dispute not enabled"
  | event =>
    if phase.isTerminal then .error s!"escrow already closed ({phase.asStr})"
    else transitionTable terms phase event

/-! ### The record -/

structure EscrowRecord where
  escrowId : Bytes
  opener : Bytes
  terms : EscrowTerms
  phase : EscrowPhase
  vault : Option VaultOutpoint
  history : List EscrowEvent
  deriving DecidableEq

namespace EscrowRecord

/-- The event that opens a record. -/
def opening [Crypto] (opener : Bytes) (terms : EscrowTerms) : EscrowEvent :=
  .opened (terms.deriveId opener) terms.buyer terms.seller terms.amount terms.timeoutBlue terms.memo

/-- `EscrowRecord::open`. -/
def openRecord [Crypto] (opener : Bytes) (terms : EscrowTerms) : Except String EscrowRecord := do
  terms.validate
  return {
    escrowId := terms.deriveId opener
    opener
    terms
    phase := .offered
    vault := none
    history := [opening opener terms] }

/-- What `apply` does for each kind of event, between the table and the last writes. -/
def applyKind (terms : EscrowTerms) : EscrowEvent → InPlace String EscrowRecord Unit
  | .funded _ outpointTxid outpointVout amount _ => do
    InPlace.check (amount = terms.amount) "fund amount must equal terms.amount"
    InPlace.write fun r => { r with vault := some ⟨outpointTxid, outpointVout⟩ }
  | .coopSettled _ payout to_ _ _ | .coopRefunded _ payout to_ _ _ | .timeoutClaimed _ payout to_ _ _ _ =>
    InPlace.lift (assertPayout payout to_ terms)
  | .disputeOpened .. => InPlace.fail "Phase 1: dispute not enabled"
  | .opened .. => InPlace.fail "already opened"

/-- `EscrowRecord::apply`. -/
def apply (event : EscrowEvent) : InPlace String EscrowRecord Unit := do
  let r ← InPlace.read
  InPlace.check (event.escrowId = r.escrowId) "event escrow_id mismatch"
  let next ← InPlace.lift (transition r.phase event r.terms)
  applyKind r.terms event
  InPlace.write fun r => { r with phase := next }
  InPlace.write fun r => { r with history := r.history ++ [event] }

/-- A run of calls, whatever their results. -/
def run (r : EscrowRecord) (events : List EscrowEvent) : EscrowRecord := events.foldl (fun r e => (apply e r).1) r

end EscrowRecord

/-! ### What a deal may do -/

/-- **The law of a deal**: it is funded once with the agreed amount, and then it pays
the seller, or the buyer, who after the timeout needs nobody for that. -/
inductive Moves (terms : EscrowTerms) : EscrowPhase → EscrowEvent → EscrowPhase → Prop
  | fund {id txid : Bytes} {vout : UInt32} {mediaBlue : Nat} :
      Moves terms .offered (.funded id txid vout terms.amount mediaBlue) .funded
  | settle {id spendTxid : Bytes} {amount : Nat} :
      Moves terms .funded (.coopSettled id .toSeller terms.seller amount spendTxid) .settled
  | refund {id spendTxid : Bytes} {amount : Nat} :
      Moves terms .funded (.coopRefunded id .toBuyer terms.buyer amount spendTxid) .refunded
  | timeout {id spendTxid : Bytes} {amount mediaBlue : Nat} (h : terms.timeoutBlue ≤ mediaBlue) :
      Moves terms .funded (.timeoutClaimed id .toBuyer terms.buyer amount spendTxid mediaBlue) .timedOut

/-- What an event is about. -/
inductive EventKind
  | opening | funding | payout | dispute
  deriving DecidableEq

namespace EscrowEvent

def kind : EscrowEvent → EventKind
  | opened .. => .opening
  | funded .. => .funding
  | coopSettled .. | coopRefunded .. | timeoutClaimed .. => .payout
  | disputeOpened .. => .dispute

/-- A payout goes where its phase says, and one by timeout comes late enough. -/
def PaysAsAgreed (terms : EscrowTerms) : EscrowEvent → Prop
  | coopSettled _ payout to_ _ _ => payout = .toSeller ∧ to_ = terms.seller
  | coopRefunded _ payout to_ _ _ => payout = .toBuyer ∧ to_ = terms.buyer
  | timeoutClaimed _ payout to_ _ _ mediaBlue =>
    payout = .toBuyer ∧ to_ = terms.buyer ∧ terms.timeoutBlue ≤ mediaBlue
  | _ => True

/-- The vault that an event names. -/
def vault : EscrowEvent → Option VaultOutpoint
  | funded _ outpointTxid outpointVout _ _ => some ⟨outpointTxid, outpointVout⟩
  | _ => none

theorem vault_isSome (event : EscrowEvent) : event.vault.isSome = true ↔ event.kind = .funding := by
  cases event <;> simp [vault, kind]

end EscrowEvent

/-- A deal that goes through some events. -/
inductive Course (terms : EscrowTerms) : List EscrowEvent → EscrowPhase → Prop
  | offered : Course terms [] .offered
  | next {events : List EscrowEvent} {event : EscrowEvent} {p q : EscrowPhase} (h : Course terms events p)
      (hmove : Moves terms p event q) : Course terms (events ++ [event]) q

section Table

variable {terms : EscrowTerms} {p q : EscrowPhase} {event : EscrowEvent} {events : List EscrowEvent}

/-- **The table is the law.** -/
theorem transition_iff : transition p event terms = .ok q ↔ Moves terms p event q := by
  constructor
  · intro h
    cases event with
    | disputeOpened => cases h
    | opened => cases p <;> cases h
    | funded id txid vout amount mediaBlue =>
        cases p with
        | offered =>
            obtain ⟨hamount, h⟩ := Except.seq_eq_ok h
            obtain rfl := Except.ok.inj h
            rw [ensure_eq_ok, beq_iff_eq] at hamount
            rw [hamount]
            exact .fund
        | _ => cases h
    | coopSettled id payout to_ amount spendTxid =>
        cases p with
        | funded =>
            obtain ⟨hpayout, h⟩ := Except.seq_eq_ok h
            obtain ⟨hto, h⟩ := Except.seq_eq_ok h
            obtain rfl := Except.ok.inj h
            rw [ensure_eq_ok, beq_iff_eq] at hpayout hto
            rw [hpayout, hto]
            exact .settle
        | _ => cases h
    | coopRefunded id payout to_ amount spendTxid =>
        cases p with
        | funded =>
            obtain ⟨hpayout, h⟩ := Except.seq_eq_ok h
            obtain ⟨hto, h⟩ := Except.seq_eq_ok h
            obtain rfl := Except.ok.inj h
            rw [ensure_eq_ok, beq_iff_eq] at hpayout hto
            rw [hpayout, hto]
            exact .refund
        | _ => cases h
    | timeoutClaimed id payout to_ amount spendTxid mediaBlue =>
        cases p with
        | funded =>
            obtain ⟨hpayout, h⟩ := Except.seq_eq_ok h
            obtain ⟨hto, h⟩ := Except.seq_eq_ok h
            obtain ⟨hreached, h⟩ := Except.seq_eq_ok h
            obtain rfl := Except.ok.inj h
            rw [ensure_eq_ok, beq_iff_eq] at hpayout hto
            rw [ensure_eq_ok, Clock.reached, decide_eq_true_eq] at hreached
            rw [hpayout, hto]
            exact .timeout hreached
        | _ => cases h
  · intro h
    cases h with
    | fund => simp [transition, transitionTable, EscrowPhase.isTerminal, ensure, bind, Except.bind, pure, Except.pure]
    | settle => simp [transition, transitionTable, EscrowPhase.isTerminal, ensure, bind, Except.bind, pure, Except.pure]
    | refund => simp [transition, transitionTable, EscrowPhase.isTerminal, ensure, bind, Except.bind, pure, Except.pure]
    | timeout h =>
        have hreached : terms.clock.reached _ = true := decide_eq_true h
        simp [transition, transitionTable, EscrowPhase.isTerminal, ensure, hreached, bind, Except.bind, pure,
          Except.pure]

/-- Nothing follows the end of a deal, and nothing leads into a dispute. -/
theorem Moves.not_terminal (h : Moves terms p event q) : p.isTerminal = false := by
  cases h <;> rfl

theorem Moves.undisputed (h : Moves terms p event q) : q ≠ .disputed := by
  cases h <;> exact EscrowPhase.noConfusion

theorem Moves.paysAsAgreed (h : Moves terms p event q) : event.PaysAsAgreed terms := by
  cases h with
  | fund => trivial
  | settle => exact ⟨rfl, rfl⟩
  | refund => exact ⟨rfl, rfl⟩
  | timeout h => exact ⟨rfl, rfl, h⟩

/-- The phase and the kind of its last event. -/
theorem Moves.kinds (h : Moves terms p event q) :
    p = .offered ∧ q = .funded ∧ event.kind = .funding ∨
      p = .funded ∧ q.isTerminal = true ∧ event.kind = .payout := by
  cases h with
  | fund => exact Or.inl ⟨rfl, rfl, rfl⟩
  | settle => exact Or.inr ⟨rfl, rfl, rfl⟩
  | refund => exact Or.inr ⟨rfl, rfl, rfl⟩
  | timeout => exact Or.inr ⟨rfl, rfl, rfl⟩

/-- Where a deal stands shows what happened: nothing, the funding, or both. -/
theorem Course.kinds (h : Course terms events p) :
    p = .offered ∧ events.map EscrowEvent.kind = [] ∨
      p = .funded ∧ events.map EscrowEvent.kind = [.funding] ∨
      p.isTerminal = true ∧ events.map EscrowEvent.kind = [.funding, .payout] := by
  induction h with
  | offered => exact Or.inl ⟨rfl, rfl⟩
  | @next events event p q _ hmove ih =>
      rw [List.map_append, List.map_singleton]
      rcases hmove.kinds with ⟨rfl, rfl, hkind⟩ | ⟨rfl, hq, hkind⟩
      · obtain ⟨-, hevents⟩ := ih.resolve_right fun h => by simp [EscrowPhase.isTerminal] at h
        exact Or.inr (Or.inl ⟨rfl, by rw [hevents, hkind]; rfl⟩)
      · have hfunded := (ih.resolve_left fun h => by simp at h).resolve_right fun h => by
          simp [EscrowPhase.isTerminal] at h
        exact Or.inr (Or.inr ⟨hq, by rw [hfunded.2, hkind]; rfl⟩)

theorem Course.undisputed (h : Course terms events p) : p ≠ .disputed := by
  cases h with
  | offered => exact EscrowPhase.noConfusion
  | next _ hmove => exact hmove.undisputed

theorem Course.paysAsAgreed (h : Course terms events p) : ∀ event ∈ events, event.PaysAsAgreed terms := by
  induction h with
  | offered => exact fun event hevent => absurd hevent List.not_mem_nil
  | next _ hmove ih =>
      intro event hevent
      rcases List.mem_append.mp hevent with hold | hnew
      · exact ih event hold
      · rw [List.mem_singleton.mp hnew]
        exact hmove.paysAsAgreed

/-- Folding the table over the events goes the same way. -/
theorem Course.folds (h : Course terms events p) :
    events.foldlM (fun p event => transition p event terms) .offered = .ok p := by
  induction h with
  | offered => rfl
  | next _ hmove ih =>
      rw [List.foldlM_append, ih]
      change ((transition _ _ terms) >>= pure) = _
      rw [transition_iff.mpr hmove]
      rfl

end Table

/-! ### Records -/

namespace EscrowRecord

variable [Crypto] {opener : Bytes} {terms : EscrowTerms} {r : EscrowRecord} {event : EscrowEvent}

omit [Crypto] in
/-- A move of the table passes the second check. -/
theorem applyKind_of_moves {p q : EscrowPhase} (h : Moves terms p event q) (r : EscrowRecord) :
    applyKind terms event r = ({ r with vault := event.vault.or r.vault }, .ok ()) := by
  cases h with
  | fund =>
      rw [applyKind, InPlace.check_bind, if_pos rfl]
      rfl
  | settle => simp [applyKind, assertPayout, PayoutVector.phase1Allowed, ensure, bind, Except.bind, EscrowEvent.vault]
  | refund => simp [applyKind, assertPayout, PayoutVector.phase1Allowed, ensure, bind, Except.bind, EscrowEvent.vault]
  | timeout => simp [applyKind, assertPayout, PayoutVector.phase1Allowed, ensure, bind, Except.bind, EscrowEvent.vault]

omit [Crypto] in
/-- **How a call ends**: it is refused and the record is as before, or the deal moves. -/
theorem apply_cases (event : EscrowEvent) (r : EscrowRecord) :
    ((∃ msg, apply event r = (r, .error msg)) ∧ ¬ ∃ q, event.escrowId = r.escrowId ∧ Moves r.terms r.phase event q) ∨
    ∃ q, event.escrowId = r.escrowId ∧ Moves r.terms r.phase event q ∧ apply event r = ({ r with
      phase := q
      vault := event.vault.or r.vault
      history := r.history ++ [event] }, .ok ()) := by
  rw [apply, InPlace.read_bind, InPlace.check_bind]
  by_cases hid : event.escrowId = r.escrowId
  · rw [if_pos hid]
    cases htable : transition r.phase event r.terms with
    | error msg =>
        refine Or.inl ⟨⟨msg, rfl⟩, ?_⟩
        rintro ⟨q, -, hmove⟩
        rw [transition_iff.mpr hmove] at htable
        cases htable
    | ok q =>
        have hmove := transition_iff.mp htable
        refine Or.inr ⟨q, hid, hmove, ?_⟩
        rw [InPlace.lift_bind_ok, InPlace.bind_ok (applyKind_of_moves hmove r)]
        rfl
  · rw [if_neg hid]
    exact Or.inl ⟨⟨_, rfl⟩, fun h => hid h.choose_spec.1⟩

/-- **A record tells the history of one deal.** -/
structure Tells (who : Bytes) (deal : EscrowTerms) (r : EscrowRecord) : Prop where
  escrowId : r.escrowId = deal.deriveId who
  opener : r.opener = who
  terms : r.terms = deal
  course : ∃ events, r.history = opening who deal :: events ∧ Course deal events r.phase
  vault : r.vault.isSome = true ↔ ∃ event ∈ r.history, event.vault.isSome = true

theorem openRecord_tells (h : openRecord opener terms = .ok r) : Tells opener terms r := by
  obtain ⟨-, h⟩ := Except.seq_eq_ok h
  obtain rfl := Except.ok.inj h
  exact ⟨rfl, rfl, rfl, ⟨[], rfl, .offered⟩, by simp [opening, EscrowEvent.vault]⟩

/-- **Step.** -/
theorem Tells.apply (h : Tells opener terms r) (event : EscrowEvent) : Tells opener terms (apply event r).1 := by
  rcases apply_cases event r with ⟨⟨msg, hrun⟩, -⟩ | ⟨q, -, hmove, hrun⟩
  · rw [hrun]
    exact h
  · rw [hrun]
    obtain ⟨events, hhistory, hcourse⟩ := h.course
    rw [h.terms] at hmove
    refine ⟨h.escrowId, h.opener, h.terms, ⟨events ++ [event], ?_, hcourse.next hmove⟩, ?_⟩
    · change r.history ++ [event] = _
      rw [hhistory, List.cons_append]
    · change (event.vault.or r.vault).isSome = true ↔ ∃ e ∈ r.history ++ [event], _
      rw [Option.isSome_or, Bool.or_eq_true, h.vault]
      simp only [List.mem_append, List.mem_singleton]
      constructor
      · rintro (hnew | ⟨e, he, hvault⟩)
        · exact ⟨event, Or.inr rfl, hnew⟩
        · exact ⟨e, Or.inl he, hvault⟩
      · rintro ⟨e, he | rfl, hvault⟩
        · exact Or.inr ⟨e, he, hvault⟩
        · exact Or.inl hvault

theorem Tells.run (h : Tells opener terms r) (events : List EscrowEvent) : Tells opener terms (r.run events) := by
  induction events generalizing r with
  | nil => exact h
  | cons event events ih => exact ih (h.apply event)

omit [Crypto] in
/-- At the end of the deal every event is refused. -/
theorem apply_terminal (h : r.phase.isTerminal = true) (event : EscrowEvent) :
    ∃ msg, EscrowRecord.apply event r = (r, .error msg) := by
  rcases apply_cases event r with ⟨hrefused, -⟩ | ⟨q, -, hmove, -⟩
  · exact hrefused
  · rw [hmove.not_terminal] at h
    cases h

omit [Crypto] in
theorem run_terminal (h : r.phase.isTerminal = true) (events : List EscrowEvent) : r.run events = r := by
  induction events with
  | nil => rfl
  | cons event events ih =>
      obtain ⟨msg, hrun⟩ := apply_terminal h event
      rw [EscrowRecord.run, List.foldl_cons, hrun]
      exact ih

/-- **What a record of a deal is at any time**: its terms stay, it is never in dispute,
the vault is known once it was funded, and the history is the opening, the funding and a
payout, as far as the deal got, whose phase it is in. -/
structure Sound (who : Bytes) (deal : EscrowTerms) (r : EscrowRecord) : Prop where
  escrowId : r.escrowId = deal.deriveId who
  opener : r.opener = who
  terms : r.terms = deal
  undisputed : r.phase ≠ .disputed
  vault : r.vault.isSome = true ↔ ∃ event ∈ r.history, event.kind = .funding
  opened : r.history.head? = some (opening who deal)
  order : r.history.map EscrowEvent.kind <+: [.opening, .funding, .payout]
  payouts : ∀ event ∈ r.history, event.PaysAsAgreed deal
  phase : r.history.tail.foldlM (fun p event => transition p event deal) .offered = .ok r.phase

theorem Tells.sound (h : Tells opener terms r) : Sound opener terms r := by
  obtain ⟨events, hhistory, hcourse⟩ := h.course
  refine ⟨h.escrowId, h.opener, h.terms, hcourse.undisputed, ?_, ?_, ?_, ?_, ?_⟩
  · simp only [h.vault, EscrowEvent.vault_isSome]
  · rw [hhistory]
    rfl
  · have hopening : (opening opener terms).kind = .opening := rfl
    rw [hhistory, List.map_cons, hopening]
    rcases hcourse.kinds with ⟨-, hkinds⟩ | ⟨-, hkinds⟩ | ⟨-, hkinds⟩
    · exact ⟨[.funding, .payout], by rw [hkinds]; rfl⟩
    · exact ⟨[.payout], by rw [hkinds]; rfl⟩
    · exact ⟨[], by rw [hkinds]; rfl⟩
  · rw [hhistory]
    exact List.forall_mem_cons.mpr ⟨trivial, hcourse.paysAsAgreed⟩
  · rw [hhistory]
    exact hcourse.folds

/-- **A record follows the law** through every sequence of events: it is sound at any
time, a refused event leaves it alone, and at the end of the deal every later event is
refused. -/
theorem run_sound (hopen : openRecord opener terms = .ok r) (events : List EscrowEvent) :
    Sound opener terms (r.run events) ∧
    (∀ event msg, (EscrowRecord.apply event (r.run events)).2 = .error msg →
      (EscrowRecord.apply event (r.run events)).1 = r.run events) ∧
    ((r.run events).phase.isTerminal = true → ∀ more event, ∃ msg,
      (EscrowRecord.apply event (r.run (events ++ more))).2 = .error msg) := by
  refine ⟨((openRecord_tells hopen).run events).sound, fun event msg herror => ?_, fun hterminal more event => ?_⟩
  · rcases apply_cases event (r.run events) with ⟨⟨msg', hrun⟩, -⟩ | ⟨q, -, -, hrun⟩
    · rw [hrun]
    · rw [hrun] at herror
      cases herror
  · obtain ⟨msg, hrun⟩ := apply_terminal hterminal event
    refine ⟨msg, ?_⟩
    have hmore : r.run (events ++ more) = r.run events := by
      rw [EscrowRecord.run, List.foldl_append]
      exact run_terminal hterminal more
    rw [hmore, hrun]

end EscrowRecord

end TuepEscrow

namespace Sample

open TuepEscrow

/-- A deal over a million units, with a timeout at score 100. -/
def deal : EscrowTerms where
  buyer := utf8 "hsn1buyer"
  seller := utf8 "hsn1seller"
  amount := 1000000
  clock := .absoluteBlue 100
  memo := utf8 "probe"
  seedHex := utf8 "aa"

/-- Its record. -/
def dealRecord [Crypto] : EscrowRecord where
  escrowId := deal.deriveId deal.buyer
  opener := deal.buyer
  terms := deal
  phase := .offered
  vault := none
  history := [EscrowRecord.opening deal.buyer deal]

/-- The funding, a claim that comes too early, and one in time. -/
def dealEvents [Crypto] : List EscrowEvent :=
  [.funded (deal.deriveId deal.buyer) (utf8 "00") 0 1000000 1,
    .timeoutClaimed (deal.deriveId deal.buyer) .toBuyer deal.buyer 1000000 (utf8 "22") 99,
    .timeoutClaimed (deal.deriveId deal.buyer) .toBuyer deal.buyer 1000000 (utf8 "22") 100]

/-- The record of the deal after these. -/
theorem deal_timed_out : (@dealRecord sampleCrypto).history.length = 1 ∧
    ((@dealRecord sampleCrypto).run (@dealEvents sampleCrypto)).phase = .timedOut ∧
    @EscrowRecord.Sound sampleCrypto deal.buyer deal ((@dealRecord sampleCrypto).run (@dealEvents sampleCrypto)) := by
  let := sampleCrypto
  have hopen : EscrowRecord.openRecord deal.buyer deal = .ok dealRecord := rfl
  exact ⟨rfl, by decide +kernel, (EscrowRecord.run_sound hopen dealEvents).1⟩

end Sample

end HassanNode
