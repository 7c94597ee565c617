import Mathlib
import HassanNode.Lib.BigEndian
import HassanNode.Lib.Chunks
import HassanNode.Net.Replies

/-!
# HassanNode.Net.Framing

The encrypted framing of `p2p.rs`: a message is a frame with its length and then frames
with its pieces, each sealed by the transport and preceded by its own length in two
bytes. What is written is read back, message by message, and on any stream a read ends
after a bounded number of frames (`Noise.framing`).

The transport is the package's. It counts the messages of each direction, so the two
ends of a direction are a `Writer` and a `Reader` with a count each; the socket between
them is a byte stream that delivers what was written.
-/

namespace HassanNode

namespace Noise

/-- The transport of an established channel: what it makes of the `nonce`-th message of a
direction, or that it fails. -/
class Transport where
  writeMessage : (nonce : Nat) → (payload : Bytes) → Option Bytes
  readMessage : (nonce : Nat) → (message : Bytes) → Option Bytes

inductive IoError
  /-- `read_exact` met the end of the stream. -/
  | unexpectedEof
  /-- What the transport reports. -/
  | transport
  /-- `io_err`. -/
  | other (message : String)
  deriving DecidableEq, Repr

def noiseMaxPlaintext : Nat := 65535 - 16

/-- `(n as u16).to_be_bytes()` and `(n as u32).to_be_bytes()`. -/
def u16BE (n : Nat) : Bytes := (Bytes.ofNatLE 2 n).reverse
def u32BE (n : Nat) : Bytes := (Bytes.ofNatLE 4 n).reverse

/-- The sending end: the messages sealed so far, and what the socket was given. -/
structure Writer where
  nonce : Nat
  written : Bytes

/-- The receiving end: the messages opened so far, and what is to come. -/
structure Reader where
  nonce : Nat
  unread : Bytes

/-- A sealed message behind its length. -/
def frame (ct : Bytes) : Bytes := u16BE ct.length ++ ct

/-- `Read::read_exact`. -/
def readExact (n : Nat) (r : Reader) : Except IoError (Bytes × Reader) :=
  if n ≤ r.unread.length then .ok (r.unread.take n, { r with unread := r.unread.drop n })
  else .error .unexpectedEof

section Functions

variable [Transport]

/-- `write_enc_frame`. -/
def writeEncFrame (w : Writer) (plaintext : Bytes) : Except IoError Writer :=
  match Transport.writeMessage w.nonce plaintext with
  | none => .error .transport
  | some ct => .ok ⟨w.nonce + 1, w.written ++ frame ct⟩

/-- `noise_write`. -/
def noiseWrite (w : Writer) (payload : Bytes) : Except IoError Writer := do
  ensure (payload.length ≤ maxMessageBytes) (.other "outgoing message exceeds MAX_MESSAGE_BYTES")
  let w ← writeEncFrame w (u32BE payload.length)
  (chunks noiseMaxPlaintext payload).foldlM writeEncFrame w

/-- `read_enc_frame`. -/
def readEncFrame (r : Reader) : Except IoError (Bytes × Reader) := do
  let (lb, r) ← readExact 2 r
  let (ct, r) ← readExact lb.toNatBE r
  match Transport.readMessage r.nonce ct with
  | none => .error .transport
  | some pt => .ok (pt, { r with nonce := r.nonce + 1 })

/-- The loop of `noise_read`. -/
def readChunks (total : Nat) (out : Bytes) (r : Reader) : Except IoError (Bytes × Reader) :=
  if _hmore : out.length < total then
    match readEncFrame r with
    | .error e => .error e
    | .ok (chunk, r) =>
      if _hsome : chunk = [] then .error (.other "empty noise chunk")
      else if (out ++ chunk).length > total then .error (.other "noise chunk overflow")
      else readChunks total (out ++ chunk) r
  else .ok (out, r)
  termination_by total - out.length
  decreasing_by
    have hpos := List.length_pos_iff.mpr _hsome
    rw [List.length_append]
    omega

/-- `noise_read`. -/
def noiseRead (r : Reader) : Except IoError (Bytes × Reader) := do
  let (header, r) ← readEncFrame r
  ensure (header.length = 4) (.other "bad noise length header")
  let total := header.toNatBE
  ensure (total ≤ maxMessageBytes) (.other "incoming message exceeds MAX_MESSAGE_BYTES")
  readChunks total [] r

/-- Several messages, one after the other. -/
def noiseReads : (count : Nat) → Reader → Except IoError (List Bytes × Reader)
  | 0, r => .ok ([], r)
  | count + 1, r => do
    let (payload, r) ← noiseRead r
    let (rest, r) ← noiseReads count r
    return (payload :: rest, r)

/-- What is asked of the transport: up to its limit a message is sealed, into 16 bytes
more, and the other end opens it as the message with that number. -/
structure Transport.Sound : Prop where
  opens : ∀ (nonce : Nat) (payload : Bytes), payload.length ≤ noiseMaxPlaintext →
    ∃ ct, Transport.writeMessage nonce payload = some ct ∧ ct.length = payload.length + 16 ∧
      Transport.readMessage nonce ct = some payload

end Functions

/-! ### Steps and lengths -/

theorem ok_bind {α β : Type} (a : α) (f : α → Except IoError β) : (Except.ok a >>= f) = f a := rfl

theorem ensure_bind {β : Type} {test : Bool} {e : IoError} (h : test = true) (f : Unit → Except IoError β) :
    (ensure test e >>= f) = f () := by
  rw [ensure, if_pos h, ok_bind]

@[simp] theorem length_u16BE (n : Nat) : (u16BE n).length = 2 := by simp [u16BE]

@[simp] theorem length_u32BE (n : Nat) : (u32BE n).length = 4 := by simp [u32BE]

theorem toNatBE_u16BE {n : Nat} (h : n < 2 ^ 16) : (u16BE n).toNatBE = n := by
  rw [u16BE, Bytes.toNatBE_reverse, Bytes.toNatLE_ofNatLE]
  exact Nat.mod_eq_of_lt h

theorem toNatBE_u32BE {n : Nat} (h : n < 2 ^ 32) : (u32BE n).toNatBE = n := by
  rw [u32BE, Bytes.toNatBE_reverse, Bytes.toNatLE_ofNatLE]
  exact Nat.mod_eq_of_lt h

theorem readExact_append {bs rest : Bytes} {n nonce : Nat} (h : bs.length = n) :
    readExact n ⟨nonce, bs ++ rest⟩ = .ok (bs, ⟨nonce, rest⟩) := by
  subst h
  rw [readExact, if_pos (by simp), List.take_left, List.drop_left]

theorem readExact_ok {n : Nat} {r r' : Reader} {bs : Bytes} (h : readExact n r = .ok (bs, r')) :
    bs.length = n ∧ r'.nonce = r.nonce ∧ r'.unread.length + n = r.unread.length := by
  unfold readExact at h
  split at h
  · rename_i hn
    obtain ⟨rfl, rfl⟩ := Prod.mk.inj (Except.ok.inj h)
    refine ⟨List.length_take_of_le hn, rfl, ?_⟩
    show (r.unread.drop n).length + n = r.unread.length
    rw [List.length_drop, Nat.sub_add_cancel hn]
  · cases h

theorem readExact_long {n : Nat} {r : Reader} (h : n ≤ r.unread.length) : ∃ bs r', readExact n r = .ok (bs, r') :=
  ⟨_, _, if_pos h⟩

section Framing

variable [Transport] {n : Nat} {p ct rest : Bytes} {ps cts : List Bytes}

/-! ### Frames -/

/-- The `n`-th and the following sealed messages, and what they open as. -/
inductive Sealed : Nat → List Bytes → List Bytes → Prop
  | nil {n : Nat} : Sealed n [] []
  | cons {n : Nat} {p ct : Bytes} {ps cts : List Bytes} (hfits : ct.length < 2 ^ 16)
      (hopens : Transport.readMessage n ct = some p) (hrest : Sealed (n + 1) ps cts) : Sealed n (p :: ps) (ct :: cts)

theorem Sealed.length_lt (h : Sealed n ps cts) : ∀ ct ∈ cts, ct.length < 2 ^ 16 := by
  induction h with
  | nil => exact fun ct hct => absurd hct List.not_mem_nil
  | cons hfits _ _ ih =>
      intro ct hct
      rcases List.mem_cons.mp hct with rfl | hct
      · exact hfits
      · exact ih ct hct

/-- Frame by frame what is written is sealed. -/
theorem writeEncFrames (hsound : Transport.Sound) {w : Writer} (hps : ∀ p ∈ ps, p.length ≤ noiseMaxPlaintext) :
    ∃ cts, ps.foldlM writeEncFrame w = .ok ⟨w.nonce + ps.length, w.written ++ cts.flatMap frame⟩ ∧
      Sealed w.nonce ps cts := by
  induction ps generalizing w with
  | nil => exact ⟨[], by simp [pure, Except.pure], .nil⟩
  | cons p ps ih =>
      have hp := hps p List.mem_cons_self
      obtain ⟨ct, hseal, hlen, hopens⟩ := hsound.opens w.nonce p hp
      obtain ⟨cts, hrun, hsealed⟩ := @ih ⟨w.nonce + 1, w.written ++ frame ct⟩ fun q hq => hps q (List.mem_cons_of_mem p hq)
      refine ⟨ct :: cts, ?_, .cons ?_ hopens hsealed⟩
      · have hstep : writeEncFrame w p = .ok ⟨w.nonce + 1, w.written ++ frame ct⟩ := by rw [writeEncFrame, hseal]
        rw [List.foldlM_cons, hstep]
        refine hrun.trans ?_
        rw [List.flatMap_cons, List.append_assoc, List.length_cons, Nat.add_right_comm, Nat.add_assoc]
      · rw [hlen]
        exact lt_of_le_of_lt (Nat.add_le_add_right hp 16) (by decide)

theorem readEncFrame_frame (hfits : ct.length < 2 ^ 16) (hopens : Transport.readMessage n ct = some p) :
    readEncFrame ⟨n, frame ct ++ rest⟩ = .ok (p, ⟨n + 1, rest⟩) := by
  rw [readEncFrame, frame, List.append_assoc, readExact_append (length_u16BE _)]
  simp only [bind, Except.bind]
  rw [readExact_append (toNatBE_u16BE hfits).symm]
  simp only [hopens]

/-- The loop reads the pieces of a message. -/
theorem readChunks_sealed (h : Sealed n ps cts) (hsome : ∀ p ∈ ps, p ≠ []) (out rest : Bytes) :
    readChunks (out ++ ps.flatten).length out ⟨n, cts.flatMap frame ++ rest⟩
      = .ok (out ++ ps.flatten, ⟨n + ps.length, rest⟩) := by
  induction h generalizing out with
  | nil =>
      rw [readChunks, dif_neg (by simp)]
      simp
  | @cons n p ct ps cts hfits hopens hsealed ih =>
      have hp : p ≠ [] := hsome p List.mem_cons_self
      have hpos := List.length_pos_iff.mpr hp
      have hrest := ih (fun q hq => hsome q (List.mem_cons_of_mem p hq)) (out ++ p)
      rw [readChunks, dif_pos (by simp only [List.flatten_cons, List.length_append]; omega), List.flatMap_cons,
        List.append_assoc, readEncFrame_frame hfits hopens]
      simp only [hp, dite_false]
      rw [if_neg (by simp only [List.flatten_cons, List.length_append]; omega), List.flatten_cons, ← List.append_assoc,
        hrest, List.length_cons, Nat.add_assoc, Nat.add_comm 1]

/-! ### Messages -/

/-- The plaintexts of a message. -/
def plaintexts (payload : Bytes) : List Bytes := u32BE payload.length :: chunks noiseMaxPlaintext payload

theorem noiseWrite_sealed (hsound : Transport.Sound) {w : Writer} (hp : p.length ≤ maxMessageBytes) :
    ∃ cts, noiseWrite w p = .ok ⟨w.nonce + (plaintexts p).length, w.written ++ cts.flatMap frame⟩ ∧
      Sealed w.nonce (plaintexts p) cts := by
  have hsmall : ∀ q ∈ plaintexts p, q.length ≤ noiseMaxPlaintext := by
    intro q hq
    rcases List.mem_cons.mp hq with rfl | hq
    · rw [length_u32BE]
      decide
    · exact length_le_of_mem_chunks (by decide) hq
  obtain ⟨cts, hrun, hsealed⟩ := writeEncFrames hsound (w := w) hsmall
  refine ⟨cts, ?_, hsealed⟩
  rw [plaintexts, List.foldlM_cons] at hrun
  rw [noiseWrite, ensure_bind (decide_eq_true hp)]
  exact hrun

theorem noiseRead_sealed (hp : p.length ≤ maxMessageBytes) (h : Sealed n (plaintexts p) cts) (rest : Bytes) :
    noiseRead ⟨n, cts.flatMap frame ++ rest⟩ = .ok (p, ⟨n + (plaintexts p).length, rest⟩) := by
  cases h with
  | @cons _ _ ct _ cts hfits hopens hsealed =>
      have hloop := readChunks_sealed hsealed (fun q hq => ne_nil_of_mem_chunks hq) [] rest
      have htotal : (u32BE p.length).toNatBE = p.length := toNatBE_u32BE (lt_of_le_of_lt hp (by decide))
      rw [flatten_chunks, List.nil_append] at hloop
      rw [noiseRead, List.flatMap_cons, List.append_assoc, readEncFrame_frame hfits hopens]
      rw [ok_bind]
      dsimp only
      rw [ensure_bind (decide_eq_true (length_u32BE _)), htotal, ensure_bind (decide_eq_true hp), hloop, plaintexts,
        List.length_cons, Nat.add_assoc, Nat.add_comm 1]

/-- Message after message. -/
theorem messages_sealed (hsound : Transport.Sound) {payloads : List Bytes} (hps : ∀ p ∈ payloads, p.length ≤ maxMessageBytes)
    (w : Writer) (rest : Bytes) : ∃ (cts : List Bytes) (m : Nat), payloads.foldlM noiseWrite w = .ok ⟨m, w.written ++ cts.flatMap frame⟩ ∧
      (∀ ct ∈ cts, ct.length < 2 ^ 16) ∧
      noiseReads payloads.length ⟨w.nonce, cts.flatMap frame ++ rest⟩ = .ok (payloads, ⟨m, rest⟩) := by
  induction payloads generalizing w with
  | nil => exact ⟨[], w.nonce, by simp [pure, Except.pure], by simp, rfl⟩
  | cons p payloads ih =>
      obtain ⟨cts, hwrite, hsealed⟩ := noiseWrite_sealed hsound (w := w) (hps p List.mem_cons_self)
      obtain ⟨cts', m, hrun, hfits, hreads⟩ := ih (fun q hq => hps q (List.mem_cons_of_mem p hq))
        ⟨w.nonce + (plaintexts p).length, w.written ++ cts.flatMap frame⟩
      refine ⟨cts ++ cts', m, ?_, ?_, ?_⟩
      · rw [List.foldlM_cons, hwrite]
        refine hrun.trans ?_
        rw [List.flatMap_append, List.append_assoc]
      · intro ct hct
        exact (List.mem_append.mp hct).elim (hsealed.length_lt ct) (hfits ct)
      · rw [List.length_cons, noiseReads, List.flatMap_append, List.append_assoc,
          noiseRead_sealed (hps p List.mem_cons_self) hsealed]
        simp only [bind, Except.bind, hreads]
        rfl

/-! ### Any stream -/

/-- What a frame takes at most: its length and 65535 bytes. -/
def maxFrameBytes : Nat := 2 + 65535

variable {r r' : Reader} {pt out out' : Bytes} {total : Nat}

/-- One frame is one message of the transport. -/
theorem readEncFrame_ok (h : readEncFrame r = .ok (pt, r')) :
    r'.nonce = r.nonce + 1 ∧ r.unread.length ≤ r'.unread.length + maxFrameBytes := by
  obtain ⟨⟨lb, r₁⟩, hhead, h⟩ := Except.bind_eq_ok h
  obtain ⟨⟨ct, r₂⟩, hbody, h⟩ := Except.bind_eq_ok h
  obtain ⟨hlb, hnonce₁, hleft₁⟩ := readExact_ok hhead
  obtain ⟨hct, hnonce₂, hleft₂⟩ := readExact_ok hbody
  have hlt := Bytes.toNatBE_lt lb
  rw [hlb] at hlt
  dsimp only at h
  split at h
  · cases h
  · obtain ⟨-, rfl⟩ := Prod.mk.inj (Except.ok.inj h)
    refine ⟨by rw [hnonce₂, hnonce₁], ?_⟩
    show r.unread.length ≤ r₂.unread.length + maxFrameBytes
    unfold maxFrameBytes
    omega

/-- A frame does not wait for more than it can hold. -/
theorem readEncFrame_long (h : maxFrameBytes ≤ r.unread.length) : readEncFrame r ≠ .error .unexpectedEof := by
  unfold maxFrameBytes at h
  obtain ⟨lb, r₁, hhead⟩ := readExact_long (n := 2) (r := r) (by omega)
  obtain ⟨hlb, -, hleft₁⟩ := readExact_ok hhead
  have hlt := Bytes.toNatBE_lt lb
  rw [hlb] at hlt
  obtain ⟨ct, r₂, hbody⟩ := readExact_long (n := lb.toNatBE) (r := r₁) (by omega)
  rw [readEncFrame, hhead, ok_bind]
  dsimp only
  rw [hbody, ok_bind]
  dsimp only
  split
  · exact fun heq => by cases heq
  · exact fun heq => by cases heq

/-- Every round of the loop adds a byte, so there are at most as many as bytes are missing. -/
theorem readChunks_ok (hout : out.length ≤ total) (h : readChunks total out r = .ok (out', r')) :
    out'.length = total ∧ r'.nonce ≤ r.nonce + (total - out.length) := by
  fun_induction readChunks total out r with
  | case1 => cases h
  | case2 => cases h
  | case3 => cases h
  | case4 out r hmore chunk r₁ hframe hsome hfits ih =>
      have hpos := List.length_pos_iff.mpr hsome
      have hnonce := (readEncFrame_ok hframe).1
      obtain ⟨hlen, hle⟩ := ih (Nat.not_lt.mp hfits) h
      rw [List.length_append] at hle
      exact ⟨hlen, by omega⟩
  | case5 out r hdone =>
      obtain ⟨rfl, rfl⟩ := Prod.mk.inj (Except.ok.inj h)
      exact ⟨Nat.le_antisymm hout (Nat.not_lt.mp hdone), Nat.le_add_right _ _⟩

theorem readChunks_long (h : maxFrameBytes * (total - out.length) ≤ r.unread.length) :
    readChunks total out r ≠ .error .unexpectedEof := by
  fun_induction readChunks total out r with
  | case1 out r hmore e hframe =>
      have hone : maxFrameBytes * 1 ≤ maxFrameBytes * (total - out.length) := Nat.mul_le_mul_left _ (by omega)
      have hlong := readEncFrame_long (hone.trans h)
      rw [hframe] at hlong
      exact hlong
  | case2 => exact fun heq => by cases heq
  | case3 => exact fun heq => by cases heq
  | case4 out r hmore chunk r₁ hframe hsome hfits ih =>
      have hpos := List.length_pos_iff.mpr hsome
      have hleft := (readEncFrame_ok hframe).2
      refine ih ?_
      have hless : total - (out ++ chunk).length + 1 ≤ total - out.length := by
        rw [List.length_append]
        omega
      have hmul := Nat.mul_le_mul_left maxFrameBytes hless
      rw [Nat.mul_add, Nat.mul_one] at hmul
      omega
  | case5 => exact fun heq => by cases heq

/-- **A read is bounded on any stream**: a message has at most the allowed length, it is
taken from at most one frame for every byte and one more, and a stream that holds as many
frames is not waited for. -/
theorem noiseRead_bounded (r : Reader) :
    (∀ out r', noiseRead r = .ok (out, r') →
      out.length ≤ maxMessageBytes ∧ r'.nonce ≤ r.nonce + 1 + maxMessageBytes) ∧
    (maxFrameBytes * (1 + maxMessageBytes) ≤ r.unread.length → noiseRead r ≠ .error .unexpectedEof) := by
  constructor
  · intro out r' h
    obtain ⟨⟨header, r₁⟩, hhead, h⟩ := Except.bind_eq_ok h
    obtain ⟨-, h⟩ := Except.seq_eq_ok h
    obtain ⟨htotal, h⟩ := Except.seq_eq_ok h
    have hle : header.toNatBE ≤ maxMessageBytes := of_decide_eq_true (ensure_eq_ok.mp htotal)
    obtain ⟨hlen, hnonce⟩ := readChunks_ok (Nat.zero_le _) h
    have hframe := (readEncFrame_ok hhead).1
    rw [List.length_nil, Nat.sub_zero] at hnonce
    exact ⟨hlen ▸ hle, by omega⟩
  · intro hlong
    rw [Nat.mul_add, Nat.mul_one] at hlong
    have hfirst := readEncFrame_long (r := r) ((Nat.le_add_right _ _).trans hlong)
    cases hhead : readEncFrame r with
    | error e =>
        rw [hhead] at hfirst
        rw [noiseRead, hhead]
        exact fun heq => hfirst (congrArg Except.error (Except.error.inj heq))
    | ok x =>
        obtain ⟨header, r₁⟩ := x
        have hleft := (readEncFrame_ok hhead).2
        rw [noiseRead, hhead, ok_bind]
        dsimp only
        by_cases hfour : header.length = 4
        · rw [ensure_bind (decide_eq_true hfour)]
          by_cases hle : header.toNatBE ≤ maxMessageBytes
          · rw [ensure_bind (decide_eq_true hle)]
            refine readChunks_long ?_
            have hmul := Nat.mul_le_mul_left maxFrameBytes hle
            rw [List.length_nil, Nat.sub_zero]
            omega
          · rw [ensure, if_neg fun h => hle (of_decide_eq_true h)]
            exact fun heq => by cases heq
        · rw [ensure, if_neg fun h => hfour (of_decide_eq_true h)]
          exact fun heq => by cases heq

/-- **Encrypted framing round-trips.** Messages of the allowed length, written one after the
other, are read back, as many and the same, and nothing is left of the stream, which is made
of frames whose length fits its two bytes. On any stream a read fails or ends within bounds. -/
theorem framing (hsound : Transport.Sound) {payloads : List Bytes}
    (hps : ∀ p ∈ payloads, p.length ≤ maxMessageBytes) (nonce : Nat) :
    (∃ (w : Writer) (cts : List Bytes), payloads.foldlM noiseWrite ⟨nonce, []⟩ = .ok w ∧
      noiseReads payloads.length ⟨nonce, w.written⟩ = .ok (payloads, ⟨w.nonce, []⟩) ∧
      w.written = cts.flatMap frame ∧ ∀ ct ∈ cts, ct.length < 2 ^ 16) ∧
    ∀ r : Reader, (∀ out r', noiseRead r = .ok (out, r') →
        out.length ≤ maxMessageBytes ∧ r'.nonce ≤ r.nonce + 1 + maxMessageBytes) ∧
      (maxFrameBytes * (1 + maxMessageBytes) ≤ r.unread.length → noiseRead r ≠ .error .unexpectedEof) := by
  obtain ⟨cts, m, hwrite, hfits, hreads⟩ := messages_sealed hsound hps ⟨nonce, []⟩ []
  rw [List.append_nil] at hreads
  exact ⟨⟨⟨m, cts.flatMap frame⟩, cts, hwrite, hreads, rfl, hfits⟩, noiseRead_bounded⟩

end Framing

namespace Sample

/-- A transport that can be evaluated: the tag is the message's number. -/
@[reducible] def plainTransport : Transport where
  writeMessage nonce payload :=
    if payload.length ≤ noiseMaxPlaintext then some (payload ++ Bytes.ofNatLE 16 nonce) else none
  readMessage nonce message :=
    if 16 ≤ message.length ∧ message.drop (message.length - 16) = Bytes.ofNatLE 16 nonce then
      some (message.take (message.length - 16))
    else none

theorem plainTransport_sound : @Transport.Sound plainTransport := by
  refine @Transport.Sound.mk plainTransport fun nonce payload hlen => ?_
  have htag : (payload ++ Bytes.ofNatLE 16 nonce).length - 16 = payload.length := by simp
  refine ⟨payload ++ Bytes.ofNatLE 16 nonce, if_pos hlen, by simp, ?_⟩
  show (if _ ∧ _ then some _ else none) = _
  rw [htag, List.drop_left, List.take_left]
  exact if_pos ⟨by simp, rfl⟩

/-- An empty message and a short one. -/
theorem framing_plain : ∃ (w : Writer) (cts : List Bytes),
    [[], [1, 2, 3]].foldlM (@noiseWrite plainTransport) ⟨0, []⟩ = .ok w ∧
      @noiseReads plainTransport 2 ⟨0, w.written⟩ = .ok ([[], [1, 2, 3]], ⟨w.nonce, []⟩) ∧
      w.written = cts.flatMap frame ∧ ∀ ct ∈ cts, ct.length < 2 ^ 16 := by
  have hps : ∀ p ∈ ([[], [1, 2, 3]] : List Bytes), p.length ≤ maxMessageBytes := by
    intro p hp
    have hshort : p.length ≤ 3 := by
      rcases List.mem_cons.mp hp with rfl | hp
      · exact Nat.zero_le 3
      · obtain rfl := List.mem_singleton.mp hp
        exact Nat.le_refl 3
    exact hshort.trans (by decide)
  exact (@framing plainTransport plainTransport_sound _ hps 0).1

end Sample

end Noise

end HassanNode
