import Mathlib
import HassanNode.Lib.Dialogue
import HassanNode.Net.Framing
import HassanNode.Net.Ip

/-!
# HassanNode.Net.Socks

Dialing through a SOCKS5 proxy (`dial_target` and `socks5_connect_timeout` of `tor.rs`):
the client negotiates, asks for its target and reads the reply, and must leave the stream
at the first byte that the target itself sends.

The client is a dialogue of bytes. `Proxy.serve` is the other end as the protocol has it;
which targets it reaches is its own business (`Proxy.reach`). The two are run against each
other in every order (`dial_served`), and the client against anything that answers
(`dial_accepted`).
-/

namespace HassanNode

open Noise (u16BE)

namespace Socks

/-! ### The client -/

inductive DialError
  /-- An error of the socket, behind a text of its own. -/
  | io (context : String)
  | message (text : String)
  deriving DecidableEq, Repr

/-- `{:02x}` of a byte. -/
def hex02 (b : UInt8) : String := String.ofList ((Address.hexEncode [b]).map fun c => Char.ofNat c.toNat)

/-- `split_host_port`. -/
def splitHostPort (target : Text) : Except String (Text × Nat) :=
  match target.rsplitOnce ':' with
  | none => .error ("expected \"host:port\", got \"" ++ String.ofList target ++ "\"")
  | some (host, portStr) =>
    match portStr.parseU16 with
    | none => .error ("invalid port in \"" ++ String.ofList target ++ "\"")
    | some port =>
      if host = [] then .error ("empty host in \"" ++ String.ofList target ++ "\"") else .ok (host, port)

/-- `octets`. -/
def ipv4Octets (ip : Ipv4Addr) : Bytes := [ip.a, ip.b, ip.c, ip.d]

/-- `octets`. -/
def ipv6Octets (ip : Ipv6Addr) : Bytes :=
  [ip.s0, ip.s1, ip.s2, ip.s3, ip.s4, ip.s5, ip.s6, ip.s7].flatMap fun s => u16BE s.toNat

/-- `socks5_error_message`. -/
def socks5ErrorMessage (code : UInt8) : String :=
  if code = 0x01 then "general SOCKS server failure"
  else if code = 0x02 then "connection not allowed by ruleset"
  else if code = 0x03 then "network unreachable"
  else if code = 0x04 then "host unreachable"
  else if code = 0x05 then "connection refused"
  else if code = 0x06 then "TTL expired"
  else if code = 0x07 then "command not supported"
  else if code = 0x08 then "address type not supported"
  else "unknown SOCKS5 error code"

abbrev Client := Dialogue UInt8 DialError

/-- The greeting of `socks5_connect_timeout`, and the method the proxy picks. -/
def negotiate : Client Unit := do
  Dialogue.send [0x05, 0x01, 0x00]
  let methodReply ← Dialogue.receive 2 (.io "SOCKS5 greeting reply failed")
  Dialogue.check (methodReply.getD 0 0 == 0x05)
    (.message ("not a SOCKS5 server (version byte " ++ toString (methodReply.getD 0 0) ++ ")"))
  Dialogue.check (methodReply.getD 1 0 == 0x00)
    (.message ("SOCKS5 server rejected no-auth (method byte 0x" ++ hex02 (methodReply.getD 1 0) ++ ")"))

/-- How many bytes the bound address of a reply has. -/
def boundLength (atyp : UInt8) : Client Nat :=
  if atyp = 0x01 then pure 4
  else if atyp = 0x04 then pure 16
  else if atyp = 0x03 then do
    let lenByte ← Dialogue.receive 1 (.io "")
    pure (lenByte.getD 0 0).toNat
  else .fail (.message ("unsupported SOCKS5 bound-address type 0x" ++ hex02 atyp))

/-- The reply, with the bound address read to its end. -/
def readReply : Client Unit := do
  let head ← Dialogue.receive 4 (.io "SOCKS5 CONNECT reply failed")
  Dialogue.check (head.getD 0 0 == 0x05) (.message "malformed SOCKS5 reply (bad version byte)")
  Dialogue.check (head.getD 1 0 == 0x00)
    (.message ("SOCKS5 CONNECT rejected: " ++ socks5ErrorMessage (head.getD 1 0)))
  let bndAddrLen ← boundLength (head.getD 3 0)
  let _ ← Dialogue.receive (bndAddrLen + 2) (.io "SOCKS5 CONNECT reply truncated")

section Functions

variable [IpParser]

/-- `build_socks5_connect_request`. -/
def buildSocks5ConnectRequest (targetHost : Text) (targetPort : Nat) : Except String Bytes :=
  match IpParser.parse targetHost with
  | some (.v4 v4) => .ok ([0x05, 0x01, 0x00] ++ [0x01] ++ ipv4Octets v4 ++ u16BE targetPort)
  | some (.v6 v6) => .ok ([0x05, 0x01, 0x00] ++ [0x04] ++ ipv6Octets v6 ++ u16BE targetPort)
  | none =>
    let hostBytes := targetHost.utf8
    if hostBytes = [] ∨ 255 < hostBytes.length then
      .error "target host must be 1-255 bytes for SOCKS5's domain-name field"
    else
      .ok ([0x05, 0x01, 0x00] ++ [0x03] ++ [UInt8.ofNat hostBytes.length] ++ hostBytes ++ u16BE targetPort)

/-- `socks5_connect_timeout`, once the proxy is reached. -/
def socks5Connect (targetHost : Text) (targetPort : Nat) : Client Unit := do
  negotiate
  match buildSocks5ConnectRequest targetHost targetPort with
  | .error e => .fail (.message e)
  | .ok request => do
    Dialogue.send request
    readReply

/-- `dial_target` with a proxy. -/
def dialTarget (target : Text) : Client Unit :=
  match splitHostPort target with
  | .error e => .fail (.message e)
  | .ok (host, port) => socks5Connect host port

end Functions

/-! ### The proxy -/

/-- An address of the protocol: the octets of an IP address, or a name. -/
inductive Endpoint
  | ipv4 (octets : Bytes) (four : octets.length = 4)
  | ipv6 (octets : Bytes) (sixteen : octets.length = 16)
  | name (host : Bytes) (fits : host.length < 256)

namespace Endpoint

/-- Its type. -/
def kind : Endpoint → UInt8
  | .ipv4 .. => 0x01
  | .ipv6 .. => 0x04
  | .name .. => 0x03

/-- The bytes behind the type. -/
def body : Endpoint → Bytes
  | .ipv4 octets _ => octets
  | .ipv6 octets _ => octets
  | .name host _ => UInt8.ofNat host.length :: host

def encode (e : Endpoint) : Bytes := e.kind :: e.body

end Endpoint

/-- A proxy without authentication: what comes of each target and port. It refuses with a
code, or it connects and passes on what the target sends. -/
structure Proxy where
  reach : Endpoint → Nat → Except ({ code : UInt8 // code ≠ 0 } × Endpoint × Nat) (Endpoint × Nat × Bytes)

abbrev Server := Dialogue UInt8 String

/-- The address behind its type. -/
def readEndpoint (atyp : UInt8) : Server Endpoint :=
  if atyp = 0x01 then do
    let octets ← Dialogue.receive 4 "closed"
    if h : octets.length = 4 then pure (.ipv4 octets h) else .fail "closed"
  else if atyp = 0x04 then do
    let octets ← Dialogue.receive 16 "closed"
    if h : octets.length = 16 then pure (.ipv6 octets h) else .fail "closed"
  else if atyp = 0x03 then do
    let lenByte ← Dialogue.receive 1 "closed"
    let host ← Dialogue.receive (lenByte.getD 0 0).toNat "closed"
    if h : host.length < 256 then pure (.name host h) else .fail "closed"
  else .fail "address type not supported"

namespace Proxy

/-- A reply with its code. -/
def reply (code : UInt8) (bound : Endpoint) (port : Nat) : Bytes :=
  [0x05, code, 0x00] ++ bound.encode ++ u16BE port

/-- The answer to a target. -/
def settle (p : Proxy) (target : Endpoint) (port : Nat) : Server (Endpoint × Nat) :=
  match p.reach target port with
  | .error (code, bound, boundPort) => do
    Dialogue.send (reply code.1 bound boundPort)
    .fail "not reached"
  | .ok (bound, boundPort, data) => do
    Dialogue.send (reply 0x00 bound boundPort)
    Dialogue.send data
    pure (target, port)

/-- The request of the client. -/
def attend (p : Proxy) : Server (Endpoint × Nat) := do
  let head ← Dialogue.receive 4 "closed"
  Dialogue.check (head.take 3 == [0x05, 0x01, 0x00]) "command not supported"
  let target ← readEndpoint (head.getD 3 0)
  let port ← Dialogue.receive 2 "closed"
  p.settle target (Bytes.toNatBE port)

/-- The whole conversation. -/
def serve (p : Proxy) : Server (Endpoint × Nat) := do
  let greeting ← Dialogue.receive 2 "closed"
  Dialogue.check (greeting.getD 0 0 == 0x05) "not a SOCKS5 client"
  let methods ← Dialogue.receive (greeting.getD 1 0).toNat "closed"
  if methods.contains 0x00 then do
    Dialogue.send [0x05, 0x00]
    p.attend
  else do
    Dialogue.send [0x05, 0xff]
    .fail "no acceptable method"

end Proxy

/-! ### The request names the target -/

section Target

variable [IpParser]

/-- What a host text stands for: the address it is a literal of, or itself as a name. -/
def endpoint (host : Text) : Option Endpoint :=
  match IpParser.parse host with
  | some (.v4 ip) => some (.ipv4 (ipv4Octets ip) rfl)
  | some (.v6 ip) => some (.ipv6 (ipv6Octets ip) (by simp [ipv6Octets]))
  | none => if h : host.utf8 ≠ [] ∧ host.utf8.length < 256 then some (.name host.utf8 h.2) else none

theorem buildSocks5ConnectRequest_eq (host : Text) (port : Nat) :
    buildSocks5ConnectRequest host port = match endpoint host with
      | some target => .ok ([0x05, 0x01, 0x00] ++ target.encode ++ u16BE port)
      | none => .error "target host must be 1-255 bytes for SOCKS5's domain-name field" := by
  rw [buildSocks5ConnectRequest, endpoint]
  cases hparse : IpParser.parse host with
  | some ip => cases ip <;> rfl
  | none =>
      by_cases hname : host.utf8 ≠ [] ∧ host.utf8.length < 256
      · have hfits : ¬ (host.utf8 = [] ∨ 255 < host.utf8.length) := by
          intro h
          rcases h with h | h
          · exact hname.1 h
          · omega
        simp only [dif_pos hname, if_neg hfits]
        rfl
      · have hunfit : host.utf8 = [] ∨ 255 < host.utf8.length := by
          by_contra h
          exact hname ⟨fun h' => h (.inl h'), by omega⟩
        simp only [dif_neg hname, if_pos hunfit]

end Target

/-- A port of this type has two bytes. -/
theorem parseU16_lt {s : Text} {n : Nat} (h : s.parseU16 = some n) : n < 2 ^ 16 := by
  simp only [Text.parseU16, Option.ite_none_left_eq_some, Option.ite_none_right_eq_some, Option.some.injEq] at h
  obtain ⟨-, hlt, rfl⟩ := h
  exact hlt

/-- An IPv6 literal in brackets, as `host:port` texts have it, is asked for as a name. -/
theorem endpoint_bracketed [IpParser] (lit : IpParser.Literal) {host : Text} (hfits : (Text.utf8 ('[' :: host)).length < 256) :
    ∃ h, endpoint ('[' :: host) = some (.name (Text.utf8 ('[' :: host)) h) := by
  have hparse : IpParser.parse ('[' :: host) = none := by
    by_contra hsome
    obtain ⟨ip, hip⟩ := Option.ne_none_iff_exists'.mp hsome
    have hchars := lit.chars _ ip hip
    rw [List.all_cons, show Text.isLiteralChar '[' = false by decide] at hchars
    cases hchars
  have hne : Text.utf8 ('[' :: host) ≠ [] := by
    rw [Text.utf8, List.flatMap_cons, show String.utf8EncodeChar '[' = [0x5b] by decide]
    exact List.cons_ne_nil _ _
  refine ⟨hfits, ?_⟩
  simp only [endpoint, hparse]
  rw [dif_pos ⟨hne, hfits⟩]

theorem splitHostPort_lt {target host : Text} {port : Nat} (h : splitHostPort target = .ok (host, port)) :
    port < 2 ^ 16 := by
  rw [splitHostPort] at h
  split at h
  · cases h
  · split at h
    · cases h
    · rename_i port' hport
      split at h
      · cases h
      · cases h
        exact parseU16_lt hport

/-! ### The conversation -/

section Conversation

variable {p : Proxy} {l : Link UInt8 DialError Unit String (Endpoint × Nat)}

/-- Client and proxy agree on no authentication. -/
theorem steps_negotiate {f : Unit → Client Unit} (h : Link.Steps ⟨f (), p.attend, [], []⟩ l) :
    Link.Steps (Link.start (negotiate >>= f) p.serve) l := by
  -- the proxy reads the version and the number of methods, and then the one method
  have hgreeting : ([] ++ [0x05, 0x01, 0x00] : Bytes) = [0x05, 0x01] ++ [0x00] := rfl
  have hmethod : ([0x00] : Bytes) = [0x00] ++ [] := rfl
  have hanswer : ([] ++ [0x05, 0x00] : Bytes) = [0x05, 0x00] ++ [] := rfl
  refine Link.client_write ?_
  refine Link.server_read hgreeting rfl ?_
  refine Link.server_read hmethod rfl ?_
  refine Link.server_write ?_
  exact Link.client_read hanswer rfl h

/-- The proxy reads an address as it is encoded. -/
theorem steps_readEndpoint {c : Client Unit} {g : Endpoint → Server (Endpoint × Nat)} {up down : Bytes}
    (target : Endpoint) (h : Link.Steps ⟨c, g target, up, down⟩ l) :
    Link.Steps ⟨c, readEndpoint target.kind >>= g, target.body ++ up, down⟩ l := by
  cases target with
  | ipv4 octets four =>
      refine Link.server_read rfl four ?_
      show Link.Steps ⟨c, (if h : octets.length = 4 then pure (.ipv4 octets h) else .fail "closed") >>= g, up, down⟩ l
      rwa [dif_pos four]
  | ipv6 octets sixteen =>
      refine Link.server_read rfl sixteen ?_
      show Link.Steps ⟨c, (if h : octets.length = 16 then pure (.ipv6 octets h) else .fail "closed") >>= g, up, down⟩ l
      rwa [dif_pos sixteen]
  | name host fits =>
      have hlen : host.length = (([UInt8.ofNat host.length] : Bytes).getD 0 0).toNat := by
        show host.length = (UInt8.ofNat host.length).toNat
        rw [UInt8.toNat_ofNat', Nat.mod_eq_of_lt fits]
      have hname : UInt8.ofNat host.length :: host ++ up = [UInt8.ofNat host.length] ++ (host ++ up) := rfl
      refine Link.server_read hname rfl ?_
      refine Link.server_read rfl hlen ?_
      show Link.Steps ⟨c, (if h : host.length < 256 then pure (.name host h) else .fail "closed") >>= g, up, down⟩ l
      rwa [dif_pos fits]

/-- The client reads a reply to its end, and no further. -/
theorem steps_bound {s : Server (Endpoint × Nat)} {up down : Bytes} (bound : Endpoint) {port : Bytes}
    (hport : port.length = 2) (h : Link.Steps ⟨.done (), s, up, down⟩ l) :
    Link.Steps ⟨boundLength bound.kind >>= fun n => (do let _ ← Dialogue.receive (n + 2) (.io "SOCKS5 CONNECT reply truncated")),
      s, up, bound.body ++ port ++ down⟩ l := by
  cases bound with
  | ipv4 octets four => exact Link.client_read rfl (by rw [Endpoint.body, List.length_append, four, hport]) h
  | ipv6 octets sixteen => exact Link.client_read rfl (by rw [Endpoint.body, List.length_append, sixteen, hport]) h
  | name host fits =>
      have hlen : (host ++ port).length = (([UInt8.ofNat host.length] : Bytes).getD 0 0).toNat + 2 := by
        show (host ++ port).length = (UInt8.ofNat host.length).toNat + 2
        rw [List.length_append, hport, UInt8.toNat_ofNat', Nat.mod_eq_of_lt fits]
      have hname : UInt8.ofNat host.length :: host ++ port ++ down
          = [UInt8.ofNat host.length] ++ (host ++ port ++ down) := rfl
      refine Link.client_read hname rfl ?_
      exact Link.client_read rfl hlen h

/-- From the request on, with a target the protocol can name. -/
theorem steps_request {t : Endpoint} {port : Nat} (hport : port < 2 ^ 16)
    (h : Link.Steps ⟨readReply, p.settle t port, [], []⟩ l) :
    Link.Steps ⟨(do Dialogue.send ([0x05, 0x01, 0x00] ++ t.encode ++ u16BE port); readReply), p.attend, [], []⟩ l := by
  refine Link.client_write ?_
  have hsplit : [] ++ ([0x05, 0x01, 0x00] ++ t.encode ++ u16BE port)
      = [0x05, 0x01, 0x00, t.kind] ++ (t.body ++ (u16BE port ++ [])) := by
    simp [Endpoint.encode]
  refine Link.server_read hsplit rfl ?_
  refine steps_readEndpoint t ?_
  refine Link.server_read rfl (Noise.length_u16BE port) ?_
  show Link.Steps ⟨readReply, p.settle t (Bytes.toNatBE (u16BE port)), [], []⟩ l
  rwa [Noise.toNatBE_u16BE hport]

/-- A refusal, of which the client reads no more than the code. -/
theorem steps_refused {t bound : Endpoint} {port boundPort : Nat} {code : { code : UInt8 // code ≠ 0 }}
    (hreach : p.reach t port = .error (code, bound, boundPort)) :
    Link.Steps ⟨readReply, p.settle t port, [], []⟩
      ⟨.fail (.message ("SOCKS5 CONNECT rejected: " ++ socks5ErrorMessage code.1)), .fail "not reached",
        [], bound.body ++ u16BE boundPort⟩ := by
  rw [Proxy.settle, hreach]
  refine Link.server_write ?_
  have hreply : [] ++ Proxy.reply code.1 bound boundPort
      = [0x05, code.1, 0x00, bound.kind] ++ (bound.body ++ u16BE boundPort) := by
    simp [Proxy.reply, Endpoint.encode]
  refine Link.client_read hreply rfl ?_
  -- the code is not zero, so the client stops there
  have hcode : ¬ (code.1 == (0x00 : UInt8)) = true := by simpa using code.2
  show Link.Steps ⟨Dialogue.check (code.1 == 0x00) _ >>= _, _, _, _⟩ _
  rw [Dialogue.check_bind, if_neg hcode]
  exact .refl

/-- A success, and what the target says behind it. -/
theorem steps_reached {t bound : Endpoint} {port boundPort : Nat} {data : Bytes}
    (hreach : p.reach t port = .ok (bound, boundPort, data)) :
    Link.Steps ⟨readReply, p.settle t port, [], []⟩ ⟨.done (), .done (t, port), [], data⟩ := by
  rw [Proxy.settle, hreach]
  refine Link.server_write ?_
  refine Link.server_write ?_
  have hreply : [] ++ Proxy.reply 0x00 bound boundPort ++ data
      = [0x05, 0x00, 0x00, bound.kind] ++ (bound.body ++ u16BE boundPort ++ data) := by
    simp [Proxy.reply, Endpoint.encode]
  refine Link.client_read hreply rfl ?_
  -- the data behind the port stays where it is
  exact steps_bound bound (Noise.length_u16BE boundPort) .refl

end Conversation

/-! ### Every order of the moves -/

section Outcome

variable [IpParser]

/-- How a conversation about a target ends: the client has its stream at the first byte
of the target's data and the proxy has reached that very target; or the client has
failed, as it does on a text without host and port, on a host that is neither a literal
nor a possible name, and on a refusal. -/
def Proxy.outcome (p : Proxy) (target : Text) : Link UInt8 DialError Unit String (Endpoint × Nat) :=
  match splitHostPort target with
  | .error e => ⟨.fail (.message e), .fail "closed", [], []⟩
  | .ok (host, port) =>
    match endpoint host with
    | none =>
      ⟨.fail (.message "target host must be 1-255 bytes for SOCKS5's domain-name field"), .fail "closed", [], []⟩
    | some t =>
      match p.reach t port with
      | .error (code, bound, boundPort) =>
        ⟨.fail (.message ("SOCKS5 CONNECT rejected: " ++ socks5ErrorMessage code.1)), .fail "not reached",
          [], bound.body ++ u16BE boundPort⟩
      | .ok (_, _, data) => ⟨.done (), .done (t, port), [], data⟩

theorem outcome_ended (p : Proxy) (target : Text) : (p.outcome target).Ended := by
  rw [Proxy.outcome]
  split
  · exact Link.ended (fun _ _ => rfl) fun _ _ => rfl
  · split
    · exact Link.ended (fun _ _ => rfl) fun _ _ => rfl
    · split
      · exact Link.ended (fun _ _ => rfl) fun _ _ => rfl
      · exact Link.ended (fun _ _ => rfl) fun _ _ => rfl

/-- One run gets there. -/
theorem steps_outcome (p : Proxy) (target : Text) :
    Link.Steps (Link.start (dialTarget target) p.serve) (p.outcome target) := by
  cases hsplit : splitHostPort target with
  | error e =>
      -- the client closes before it has written anything
      simp only [dialTarget, Proxy.outcome, hsplit]
      exact Link.server_eof (by decide) .refl
  | ok parts =>
      obtain ⟨host, port⟩ := parts
      simp only [dialTarget, Proxy.outcome, hsplit]
      refine steps_negotiate ?_
      rw [buildSocks5ConnectRequest_eq]
      cases hend : endpoint host with
      | none =>
          -- the greeting is over, and no request follows
          exact Link.server_eof (by decide) .refl
      | some t =>
          dsimp only
          refine steps_request (splitHostPort_lt hsplit) ?_
          cases hreach : p.reach t port with
          | error refusal =>
              obtain ⟨code, bound, boundPort⟩ := refusal
              exact steps_refused hreach
          | ok reached =>
              obtain ⟨bound, boundPort, data⟩ := reached
              exact steps_reached hreach

omit [IpParser] in
theorem exists_four {xs : Bytes} (h : xs.length = 4) : ∃ a b c d, xs = [a, b, c, d] := by
  obtain ⟨a, ys, rfl⟩ := List.exists_cons_of_length_pos (by omega : 0 < xs.length)
  obtain ⟨b, c, d, rfl⟩ := List.length_eq_three.mp (by simpa using h : ys.length = 3)
  exact ⟨a, b, c, d, rfl⟩

omit [IpParser] in
/-- What the client reads of a greeting's answer. -/
theorem negotiate_inv {f : Unit → Client Unit} {read written : Bytes}
    (h : Dialogue.After (negotiate >>= f) read written (.done ())) :
    ∃ r w, read = [0x05, 0x00] ++ r ∧ written = [0x05, 0x01, 0x00] ++ w ∧ Dialogue.After (f ()) r w (.done ()) := by
  simp only [negotiate, Dialogue.bind_assoc] at h
  obtain ⟨w, hw, hread⟩ := h.write_inv
  obtain ⟨methodReply, r, hlen, hr, hchecks⟩ := hread.read_inv
  obtain ⟨version, method, rfl⟩ := List.length_eq_two.mp hlen
  obtain ⟨hversion, hchecks⟩ := Dialogue.After.check_inv hchecks
  obtain ⟨hmethod, hrest⟩ := Dialogue.After.check_inv hchecks
  rw [beq_iff_eq] at hversion hmethod
  obtain rfl : version = 0x05 := hversion
  obtain rfl : method = 0x00 := hmethod
  exact ⟨r, w, hr, hw, hrest⟩

omit [IpParser] in
/-- What it reads of a reply. -/
theorem readReply_inv {read written : Bytes} (h : Dialogue.After readReply read written (.done ())) :
    written = [] ∧ ∃ (reserved : UInt8) (bound : Endpoint) (boundPort : Bytes), boundPort.length = 2 ∧
      read = [0x05, 0x00, reserved] ++ bound.encode ++ boundPort := by
  obtain ⟨head, r, hlen, rfl, hchecks⟩ := h.read_inv
  obtain ⟨version, code, reserved, kind, rfl⟩ := exists_four hlen
  obtain ⟨hversion, hchecks⟩ := Dialogue.After.check_inv hchecks
  obtain ⟨hcode, hbound⟩ := Dialogue.After.check_inv hchecks
  rw [beq_iff_eq] at hversion hcode
  obtain rfl : version = 0x05 := hversion
  obtain rfl : code = 0x00 := hcode
  -- what is left after the type: an address of that type and two bytes of port
  have hrest : ∀ {n : Nat} {xs ys : Bytes},
      Dialogue.After (do let _ ← Dialogue.receive (n + 2) (.io "SOCKS5 CONNECT reply truncated") : Client Unit)
        xs ys (.done ()) → ys = [] ∧ ∃ addr port : Bytes, addr.length = n ∧ port.length = 2 ∧ xs = addr ++ port := by
    intro n xs ys hread
    obtain ⟨rest, tail, hlen, rfl, hend⟩ := hread.read_inv
    obtain ⟨rfl, hys, -⟩ := Dialogue.After.done_inv hend
    exact ⟨hys, rest.take n, rest.drop n, by simp [hlen], by simp [hlen], by simp⟩
  replace hbound : Dialogue.After (boundLength kind >>= fun n => (do
      let _ ← Dialogue.receive (n + 2) (.io "SOCKS5 CONNECT reply truncated"))) r written (.done ()) := hbound
  rw [boundLength] at hbound
  split at hbound
  · rename_i hkind
    obtain ⟨hw, addr, port, haddr, hport, rfl⟩ := hrest hbound
    exact ⟨hw, reserved, .ipv4 addr haddr, port, hport, by simp [Endpoint.encode, Endpoint.kind, Endpoint.body, hkind]⟩
  · split at hbound
    · rename_i hkind
      obtain ⟨hw, addr, port, haddr, hport, rfl⟩ := hrest hbound
      exact ⟨hw, reserved, .ipv6 addr haddr, port, hport, by simp [Endpoint.encode, Endpoint.kind, Endpoint.body, hkind]⟩
    · split at hbound
      · rename_i hkind
        obtain ⟨lenByte, r', hlen', rfl, hname⟩ := hbound.read_inv
        obtain ⟨n, rfl⟩ := List.length_eq_one_iff.mp hlen'
        obtain ⟨hw, addr, port, haddr, hport, rfl⟩ := hrest hname
        have haddr' : addr.length = n.toNat := haddr
        have hn : UInt8.ofNat addr.length = n := by rw [haddr', UInt8.ofNat_toNat]
        exact ⟨hw, reserved, .name addr (haddr' ▸ n.toNat_lt), port, hport,
          by simp [Endpoint.encode, Endpoint.kind, Endpoint.body, hkind, hn]⟩
      · exact hbound.fail_inv.elim

/-- What has passed when a connection about a target stands: the client has asked for
what the text names and for nothing else, the other end has written a well-formed success
reply, and what it has written since is still to be read. -/
def Connected {ε β : Type} (target : Text) (server : Dialogue UInt8 ε β) (l : Link UInt8 DialError Unit ε β) : Prop :=
  ∃ host port t, splitHostPort target = .ok (host, port) ∧ endpoint host = some t ∧
    ∃ (reserved : UInt8) (bound : Endpoint) (boundPort read written : Bytes), boundPort.length = 2 ∧
      Dialogue.After server read written l.server ∧
      read ++ l.toServer = [0x05, 0x01, 0x00] ++ ([0x05, 0x01, 0x00] ++ t.encode ++ u16BE port) ∧
      written = [0x05, 0x00] ++ ([0x05, 0x00, reserved] ++ bound.encode ++ boundPort) ++ l.toClient

/-- **What the client accepts.** Whatever answers, in whatever order things happen and
whichever timers fire: if the client takes the connection to be made, it is `Connected`. -/
theorem dial_accepted {ε β : Type} {target : Text} {server : Dialogue UInt8 ε β} {l : Link UInt8 DialError Unit ε β}
    (hrun : Link.TimedSteps (Link.start (dialTarget target) server) l) (hdone : l.client = .done ()) :
    Connected target server l := by
  obtain ⟨r, w, r', w', hclient, hserver, hup, hdown⟩ := Link.account hrun
  rw [hdone] at hclient
  cases hsplit : splitHostPort target with
  | error e =>
      rw [dialTarget, hsplit] at hclient
      exact hclient.fail_inv.elim
  | ok parts =>
      obtain ⟨host, port⟩ := parts
      rw [dialTarget, hsplit] at hclient
      obtain ⟨r₁, w₁, rfl, rfl, hrequest⟩ := negotiate_inv hclient
      rw [buildSocks5ConnectRequest_eq] at hrequest
      cases hend : endpoint host with
      | none =>
          rw [hend] at hrequest
          exact hrequest.fail_inv.elim
      | some t =>
          rw [hend] at hrequest
          obtain ⟨w₂, rfl, hreply⟩ := hrequest.write_inv
          obtain ⟨rfl, reserved, bound, boundPort, hport, rfl⟩ := readReply_inv hreply
          refine ⟨host, port, t, hsplit, hend, reserved, bound, boundPort, r', w', hport, hserver, ?_, hdown⟩
          rw [← hup, List.append_nil]

end Outcome

end Socks

namespace Sample

/-- A proxy that reaches everything, where every target says the same. -/
def talkingProxy : Socks.Proxy where
  reach _ _ := .ok (.ipv4 [0, 0, 0, 0] rfl, 0, [0x68, 0x69])

/-- A target by name. -/
def namedTarget : Text := "seed.onion:9333".toList

/-- It is no literal. -/
@[reducible] def nameParser : IpParser := parserOf []

/-- The two at the start. -/
def namedStart : Link UInt8 Socks.DialError Unit String (Socks.Endpoint × Nat) :=
  Link.start (@Socks.dialTarget nameParser namedTarget) talkingProxy.serve

def namedEnd : Link UInt8 Socks.DialError Unit String (Socks.Endpoint × Nat) :=
  @Socks.Proxy.outcome nameParser talkingProxy namedTarget

theorem accepted_by_name : @Socks.Connected nameParser _ _ namedTarget talkingProxy.serve namedEnd :=
  @Socks.dial_accepted nameParser _ _ namedTarget talkingProxy.serve namedEnd
    (Link.Steps.timed (@Socks.steps_outcome nameParser talkingProxy namedTarget)) rfl

end Sample

end HassanNode
