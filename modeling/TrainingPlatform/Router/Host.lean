import TrainingPlatform.Go.Matching
import TrainingPlatform.Go.Decimal

/-!
# Exposed-port hosts

The host a lesson page builds for a port of a Pod, and what the composed server
makes of it: which handler the request goes to and which address it is proxied to.
-/

namespace TrainingPlatform.Router

open Go Go.Re

def dot : UInt8 := 0x2E
def dash : UInt8 := 0x2D
def colon : UInt8 := 0x3A

/-- A byte of `[0-9a-z]`. -/
def isTokenByte (b : UInt8) : Bool := isDecimal b || (0x61 ≤ b && b ≤ 0x7A)

/-- A byte of `[a-zA-Z0-9_\-.]`. -/
def isNameByte (b : UInt8) : Bool :=
  letter b || isDecimal b || b = 0x5F || b = dash || b = dot

/-- Every occurrence of one byte replaced by another. -/
def replaceByte (old new : UInt8) (s : GoString) : GoString :=
  s.map fun b => if b = old then new else b

/-! ## Decoding -/

def octet : Re := upTo (set isDecimal) 2

def hostParts : List Re :=
  [many (noneOf (utf8 "\n")), lit (utf8 "ip"),
    group 1 (all [octet, byte dash, octet, byte dash, octet, byte dash, octet]), byte dash,
    group 2 (many1 (set isTokenByte)),
    opt (all [byte dash, group 3 (upTo (set isDecimal) 4)]),
    opt (all [byte dot, many1 (set isNameByte)]),
    opt (all [byte colon, upTo (set isDecimal) 4])]

def hostRe : Re := anchored hostParts

structure Target where
  ip : GoString
  port : Int
  sessionID : GoString
  deriving DecidableEq

/-- Each error names the host. -/
inductive HostError where
  | noInstance (host : GoString)
  | octet (host : GoString)
  | port (host : GoString)
  deriving DecidableEq

def decodeHost (host : GoString) (defaultPort : Int) : Except HostError Target :=
  match find hostRe host with
  | none => .error (.noInstance host)
  | some m =>
    let ip := replaceByte dash dot (m.group 1)
    if (ip.splitOn dot).any fun oct => 255 < (atoi oct).1 then .error (.octet host)
    else if m.group 3 = [] then .ok ⟨ip, defaultPort, m.group 2⟩
    else
      let p := atoi (m.group 3)
      if !p.2 || p.1 < 1 || 65535 < p.1 then .error (.port host)
      else .ok ⟨ip, p.1, m.group 2⟩

/-! ## Dispatch -/

/-- `net.SplitHostPort`, without the texts of its errors. -/
def splitHostPort (hostport : GoString) : Option (GoString × GoString) :=
  let port := (hostport.reverse.takeWhile (· ≠ colon)).reverse
  let i := hostport.length - port.length - 1
  if !hostport.contains colon then none
  else if hostport.head? = some 0x5B then
    -- The bracket that closes an IPv6 address stands before the last colon.
    let close := (hostport.takeWhile (· ≠ 0x5D)).length
    if !hostport.contains 0x5D then none
    else if close + 1 ≠ i then none
    else if (hostport.drop 1).contains 0x5B then none
    else if (hostport.drop (close + 1)).contains 0x5D then none
    else some ((hostport.take close).drop 1, port)
  else
    let host := hostport.take i
    if host.contains colon then none
    else if hostport.contains 0x5B then none
    else if hostport.contains 0x5D then none
    else some (host, port)

def stripPort (host : GoString) : GoString :=
  match splitHostPort host with
  | some (h, _) => h
  | none => host

/-- Where the composed server sends a request. -/
inductive Route where
  | proxy (t : Target)
  | mux
  deriving DecidableEq

/-- The handler `New` builds, for a request with this host. -/
def dispatch (routerHost host : GoString) : Route :=
  if routerHost = [] then .mux
  else if hasSuffix (stripPort host) (dot :: stripPort routerHost) then
    match decodeHost host 80 with
    | .ok t => .proxy t
    | .error _ => .mux
  else .mux

/-! ## Encoding -/

def hostToken (s : GoString) : GoString :=
  let b := s.filter isTokenByte
  if b = [] then utf8 "s0" else b

/-- The environment of an instance. -/
def instanceEnv (hostFQDN sessionID : GoString) : List (GoString × GoString) :=
  (utf8 "SESSION_ID", hostToken sessionID) ::
    if hostFQDN = [] then [] else [(utf8 "PWD_HOST_FQDN", hostFQDN)]

/-- The token the page puts into a host. -/
def pageToken (pod : GoString) : GoString :=
  let b := pod.filter isTokenByte
  if b = [] then utf8 "i0" else b

/-- The host of `rewritePortLinks`. -/
def linkHost (hostPrefix ip pod port routerHost : GoString) : GoString :=
  (if hostPrefix = [] then [] else hostPrefix ++ [dash]) ++ utf8 "ip" ++
    replaceByte dot dash ip ++ dash :: pageToken pod ++ dash :: port ++ dot :: routerHost

end TrainingPlatform.Router
