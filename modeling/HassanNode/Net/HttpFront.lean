import Mathlib
import HassanNode.Net.Ip

/-!
# HassanNode.Net.HttpFront

Reading a request at the HTTP front (`read_request` of `main.rs`). The socket hands over
the bytes of a request in chunks of its own choosing, and after each chunk the loop looks
at everything it has: is it over the cap, is the end of the headers there, does the
declared body fit, has it arrived.

How the bytes were divided must not matter. A request that is complete and fits is read
whole, and one whose declared body does not fit is refused, in every division; what is
accepted never passes the cap (`readRequest_spec`). The invariant of the loop is that
what it has so far is a proper beginning of the request.
-/

namespace HassanNode

/-- `String::from_utf8_lossy` of the standard library. -/
class LossyUtf8 where
  decode : Bytes → Text

namespace Text

/-- `split_once` at a character. -/
def splitOnce (sep : Char) (s : Text) : Option (Text × Text) :=
  if sep ∈ s then some (s.takeWhile (· ≠ sep), (s.dropWhile (· ≠ sep)).tail) else none

/-- A line without the carriage return before its end. -/
def stripReturn (s : Text) : Text := if s.getLast? = some '\r' then s.dropLast else s

/-- `str::lines`. -/
def lines (s : Text) : List Text :=
  let pieces := s.splitOn '\n'
  pieces.dropLast.map stripReturn ++ pieces.getLast?.toList.filter (· ≠ [])

/-- `parse::<usize>`: decimal digits after an optional plus sign. -/
def parseUsize (s : Text) : Option Nat :=
  let digits := if s.head? = some '+' then s.tail else s
  if digits = [] ∨ ¬ digits.all Char.isDigit then none
  else
    let n := digits.foldl (fun n c => n * 10 + (c.toNat - 48)) 0
    if n < 2 ^ 64 then some n else none

end Text

namespace HttpFront

/-- The empty line that ends the headers, with the end of the line before it. -/
def blankLine : Bytes := [13, 10, 13, 10]

/-- `windows(4).position`: where the blank line is first seen. -/
def headerEnd : Bytes → Option Nat
  | [] => none
  | b :: bs => if blankLine.isPrefixOf (b :: bs) then some 0 else (headerEnd bs).map (· + 1)

/-- What one read of the socket gives: not nothing, which is the end of the stream, and
no more than its buffer holds. -/
abbrev Chunk := { bytes : Bytes // bytes ≠ [] ∧ bytes.length ≤ 4096 }

/-- All that is read. -/
def stream (chunks : List Chunk) : Bytes := chunks.flatMap Subtype.val

@[simp] theorem stream_nil : stream [] = [] := rfl

@[simp] theorem stream_cons (chunk : Chunk) (rest : List Chunk) :
    stream (chunk :: rest) = chunk.val ++ stream rest := List.flatMap_cons

def capMessage (maxBytes : Nat) : String := "request exceeds " ++ toString maxBytes ++ " byte cap"

section Functions

variable [LossyUtf8]

/-- One line, if it declares a length. -/
def declaredLength (line : Text) : Option Nat := do
  let (name, value) ← line.splitOnce ':'
  if name.lowercase = "content-length".toList then value.trim.parseUsize else none

/-- The length of the body: the first that a line declares, or none. -/
def contentLength (headers : Bytes) : Nat :=
  ((LossyUtf8.decode headers).lines.findSome? declaredLength).getD 0

/-- The loop of `read_request`, with what it has, the chunks to come, and the error of
the socket behind them, if it does not just close. -/
def readRequest (maxBytes : Nat) (ending : Option String) : Bytes → List Chunk → Except String Bytes
  | buf, [] =>
    match ending with
    | none => .ok buf
    | some e => .error e
  | buf, chunk :: rest =>
    let buf := buf ++ chunk.val
    if buf.length > maxBytes then .error (capMessage maxBytes)
    else
      match headerEnd buf with
      | none => readRequest maxBytes ending buf rest
      | some headerEnd =>
        let length := contentLength (buf.take headerEnd)
        let headerTotal := headerEnd + 4
        if length > maxBytes - headerTotal then .error (capMessage maxBytes)
        else if buf.length - headerTotal ≥ length then .ok buf
        else readRequest maxBytes ending buf rest

end Functions

/-! ### The end of the headers -/

section HeaderEnd

variable {bs more : Bytes} {e : Nat}

theorem headerEnd_le (h : headerEnd bs = some e) : e + 4 ≤ bs.length := by
  induction bs generalizing e with
  | nil => cases h
  | cons b bs ih =>
      rw [headerEnd] at h
      split at h
      · rename_i hblank
        cases h
        have hle := (List.isPrefixOf_iff_prefix.mp hblank).length_le
        simpa [blankLine] using hle
      · obtain ⟨e', he', rfl⟩ := Option.map_eq_some_iff.mp h
        have hle := ih he'
        rw [List.length_cons]
        omega

/-- What has been seen stays where it is. -/
theorem headerEnd_append (h : headerEnd bs = some e) (more : Bytes) : headerEnd (bs ++ more) = some e := by
  induction bs generalizing e with
  | nil => cases h
  | cons b bs ih =>
      rw [headerEnd] at h
      rw [List.cons_append, headerEnd]
      split at h
      · rename_i hblank
        have hblank' : blankLine.isPrefixOf (b :: (bs ++ more)) = true :=
          List.isPrefixOf_iff_prefix.mpr ((List.isPrefixOf_iff_prefix.mp hblank).trans (List.prefix_append (b :: bs) more))
        rw [if_pos hblank', h]
      · rename_i hblank
        obtain ⟨e', he', rfl⟩ := Option.map_eq_some_iff.mp h
        have hlong := headerEnd_le he'
        have hblank' : ¬ blankLine.isPrefixOf (b :: (bs ++ more)) = true := by
          intro hlater
          -- the blank line would have been seen here: there are enough bytes
          have hbegins : blankLine <+: b :: bs := by
            refine List.prefix_of_prefix_length_le (List.isPrefixOf_iff_prefix.mp hlater)
              (List.prefix_append (b :: bs) more) ?_
            rw [List.length_cons]
            show 4 ≤ bs.length + 1
            omega
          exact hblank (List.isPrefixOf_iff_prefix.mpr hbegins)
        rw [if_neg hblank', ih he']
        rfl

/-- What is there to be seen is seen. -/
theorem headerEnd_of_append (h : headerEnd (bs ++ more) = some e) (hle : e + 4 ≤ bs.length) :
    headerEnd bs = some e := by
  induction bs generalizing e with
  | nil => simp at hle
  | cons b bs ih =>
      rw [List.cons_append, headerEnd] at h
      rw [headerEnd]
      split at h
      · rename_i hblank
        cases h
        have hbegins : blankLine <+: b :: bs :=
          List.prefix_of_prefix_length_le (List.isPrefixOf_iff_prefix.mp hblank) (List.prefix_append (b :: bs) more) hle
        rw [if_pos (List.isPrefixOf_iff_prefix.mpr hbegins)]
      · rename_i hblank
        obtain ⟨e', he', rfl⟩ := Option.map_eq_some_iff.mp h
        have hblank' : ¬ blankLine.isPrefixOf (b :: bs) = true := by
          intro hhere
          exact hblank (List.isPrefixOf_iff_prefix.mpr
            ((List.isPrefixOf_iff_prefix.mp hhere).trans (List.prefix_append (b :: bs) more)))
        rw [List.length_cons] at hle
        rw [if_neg hblank', ih he' (by omega)]
        rfl

end HeaderEnd

/-! ### Every division -/

section Divisions

variable [LossyUtf8] {maxBytes : Nat} {ending : Option String} {s buf : Bytes} {chunks : List Chunk}

/-- Headers and the body they declare, and nothing behind, within the cap. -/
def Complete (maxBytes : Nat) (s : Bytes) : Prop :=
  ∃ e, headerEnd s = some e ∧ s.length = e + 4 + contentLength (s.take e) ∧ s.length ≤ maxBytes

/-- Headers that declare a body for which there is no room. -/
def Oversized (maxBytes : Nat) (s : Bytes) : Prop :=
  ∃ e, headerEnd s = some e ∧ maxBytes - (e + 4) < contentLength (s.take e)

/-- What a read that succeeds has: no more than the cap, a beginning of what arrives, and
either all of it or at least the headers with their body. -/
def Received (maxBytes : Nat) (ending : Option String) (s buf : Bytes) : Prop :=
  buf.length ≤ maxBytes ∧ buf <+: s ∧
    (ending = none ∧ buf = s ∨ ∃ e, headerEnd buf = some e ∧ e + 4 + contentLength (buf.take e) ≤ buf.length)

omit [LossyUtf8] in
/-- The headers that a beginning shows are those of the whole. -/
theorem headers_seen {more : Bytes} {e e' : Nat} (hhead : headerEnd buf = some e') (hsplit : buf ++ more = s)
    (hend : headerEnd s = some e) : e' = e ∧ buf.take e' = s.take e := by
  have hlater := headerEnd_append hhead more
  rw [hsplit, hend] at hlater
  obtain rfl : e = e' := Option.some.inj hlater
  have hle := headerEnd_le hhead
  refine ⟨rfl, ?_⟩
  rw [← hsplit, List.take_append_of_le_length (by omega)]

theorem readRequest_complete (hc : Complete maxBytes s) (hshort : buf.length < s.length)
    (hsplit : buf ++ stream chunks = s) : readRequest maxBytes ending buf chunks = .ok s := by
  obtain ⟨e, hend, hlen, hcap⟩ := hc
  induction chunks generalizing buf with
  | nil =>
      rw [stream_nil, List.append_nil] at hsplit
      rw [hsplit] at hshort
      omega
  | cons chunk rest ih =>
      have hsplit' : (buf ++ chunk.val) ++ stream rest = s := by
        rw [← hsplit, stream_cons, List.append_assoc]
      have hbegins : buf ++ chunk.val <+: s := ⟨_, hsplit'⟩
      have hle := hbegins.length_le
      rw [readRequest]
      dsimp only
      rw [if_neg (by omega)]
      cases hhead : headerEnd (buf ++ chunk.val) with
      | none =>
          refine ih (lt_of_le_of_ne hle fun heq => ?_) hsplit'
          -- the whole has its headers
          rw [hbegins.eq_of_length_le heq.ge, hend] at hhead
          cases hhead
      | some e' =>
          obtain ⟨rfl, hheaders⟩ := headers_seen hhead hsplit' hend
          have hle' := headerEnd_le hhead
          dsimp only
          rw [hheaders, if_neg (by omega)]
          split
          · -- all of the body is there
            rw [hbegins.eq_of_length_le (by omega)]
          · exact ih (by omega) hsplit'

theorem readRequest_oversized {e : Nat} (hend : headerEnd s = some e)
    (hroom : maxBytes - (e + 4) < contentLength (s.take e)) (hshort : buf.length < e + 4)
    (hsplit : buf ++ stream chunks = s) : readRequest maxBytes ending buf chunks = .error (capMessage maxBytes) := by
  induction chunks generalizing buf with
  | nil =>
      rw [stream_nil, List.append_nil] at hsplit
      have hle := headerEnd_le hend
      rw [← hsplit] at hle
      omega
  | cons chunk rest ih =>
      have hsplit' : (buf ++ chunk.val) ++ stream rest = s := by
        rw [← hsplit, stream_cons, List.append_assoc]
      rw [readRequest]
      dsimp only
      split
      · rfl
      · cases hhead : headerEnd (buf ++ chunk.val) with
        | none =>
            refine ih ?_ hsplit'
            by_contra hlong
            -- the headers have arrived, and the loop would have seen it
            rw [← hsplit'] at hend
            rw [headerEnd_of_append hend (by omega)] at hhead
            cases hhead
        | some e' =>
            obtain ⟨rfl, hheaders⟩ := headers_seen hhead hsplit' hend
            dsimp only
            rw [hheaders, if_pos hroom]

theorem readRequest_received {out : Bytes} (hcap : buf.length ≤ maxBytes) (hsplit : buf ++ stream chunks = s)
    (h : readRequest maxBytes ending buf chunks = .ok out) : Received maxBytes ending s out := by
  induction chunks generalizing buf with
  | nil =>
      rw [stream_nil, List.append_nil] at hsplit
      cases ending with
      | none =>
          rw [readRequest] at h
          cases h
          exact ⟨hcap, hsplit ▸ List.prefix_refl _, .inl ⟨rfl, hsplit⟩⟩
      | some e =>
          rw [readRequest] at h
          cases h
  | cons chunk rest ih =>
      have hsplit' : (buf ++ chunk.val) ++ stream rest = s := by
        rw [← hsplit, stream_cons, List.append_assoc]
      rw [readRequest] at h
      dsimp only at h
      split at h
      · cases h
      · rename_i hfits
        cases hhead : headerEnd (buf ++ chunk.val) with
        | none =>
            rw [hhead] at h
            exact ih (by omega) hsplit' h
        | some e =>
            rw [hhead] at h
            dsimp only at h
            split at h
            · cases h
            · split at h
              · rename_i hbody
                cases h
                have hle := headerEnd_le hhead
                exact ⟨by omega, ⟨_, hsplit'⟩, .inr ⟨e, hhead, by omega⟩⟩
              · exact ih (by omega) hsplit' h

/-- **The division into reads does not matter.** For every way in which the socket hands
over a stream, and however it ends: a complete request that fits is read whole, one whose
declared body does not fit is refused as over the cap, and whatever is accepted is within
the cap and holds the headers with their body, unless the stream closed before. -/
theorem readRequest_spec (maxBytes : Nat) (ending : Option String) (chunks : List Chunk) :
    (Complete maxBytes (stream chunks) → readRequest maxBytes ending [] chunks = .ok (stream chunks)) ∧
      (Oversized maxBytes (stream chunks) →
        readRequest maxBytes ending [] chunks = .error (capMessage maxBytes)) ∧
      ∀ buf, readRequest maxBytes ending [] chunks = .ok buf → Received maxBytes ending (stream chunks) buf := by
  refine ⟨fun hc => ?_, fun ho => ?_, fun buf h => ?_⟩
  · obtain ⟨e, hend, hlen, hcap⟩ := hc
    exact readRequest_complete ⟨e, hend, hlen, hcap⟩ (by rw [List.length_nil]; omega) rfl
  · obtain ⟨e, hend, hroom⟩ := ho
    exact readRequest_oversized hend hroom (by rw [List.length_nil]; omega) rfl
  · exact readRequest_received (Nat.zero_le _) rfl h

end Divisions

end HttpFront

namespace Sample

/-- On plain characters, what the decoder does. -/
@[reducible] def asciiDecoder : LossyUtf8 where
  decode bs := bs.map fun b => Char.ofNat b.toNat

def plainBytes (s : String) : Bytes := s.toList.map fun c => UInt8.ofNat c.toNat

/-- Two reads, the first of which ends inside the blank line. -/
example :
    @HttpFront.readRequest asciiDecoder 64 none []
      [⟨plainBytes "POST /\r\nContent-Length: 2\r\n\r", by decide +kernel⟩, ⟨plainBytes "\nok", by decide +kernel⟩]
      = .ok (plainBytes "POST /\r\nContent-Length: 2\r\n\r\nok") := by decide +kernel

end Sample

end HassanNode
