import TagScript.Editor.NetAddress

/-!
# Document addresses

Editors name documents by address. The document's path is the path component of the address
with its percent escapes decoded; an address with a scheme and no slash behind it has none.
Every part of an address is checked, though only the path is kept.
-/

namespace TagScript

/-- Why an address is refused. -/
inductive UriFault where
  | controlCharacter
  | missingScheme
  | colonInFirstSegment
  | badEscape (escape : Bytes)
  | badHostCharacter (c : UInt8)
  | unclosedHost
  | badHostTail (tail : Bytes)
  /-- A bracket in a host is not at its start, or brackets hold a dotted address. -/
  | badHostLiteral
  /-- What stands in brackets is no network address. -/
  | badHostAddress (text : Bytes) (fault : NetFault)
  | badUser
  deriving DecidableEq, Repr

/-- The fault in words. -/
def UriFault.message : UriFault → Bytes
  | .controlCharacter => "net/url: invalid control character in URL"
  | .missingScheme => "missing protocol scheme"
  | .colonInFirstSegment => "first path segment in URL cannot contain colon"
  | .badEscape escape => "invalid URL escape " ++ quoted escape
  | .badHostCharacter c => "invalid character " ++ quoted [c] ++ " in host name"
  | .unclosedHost => "missing ']' in host"
  | .badHostTail tail => "invalid port " ++ quoted tail ++ " after host"
  | .badHostLiteral => "invalid IP-literal"
  | .badHostAddress text fault => "invalid host: " ++ fault.message text
  | .badUser => "net/url: invalid userinfo"

/-- A refused address, with the part of it that was being read. -/
structure UriError where
  uri : Bytes
  part : Bytes
  fault : UriFault
  deriving DecidableEq, Repr

/-- The error in words. -/
def UriError.message (e : UriError) : Bytes :=
  "invalid URI " ++ e.uri ++ ": parse " ++ quoted e.part ++ ": " ++ e.fault.message

namespace Uri

/-- The byte that two hexadecimal digits spell. -/
def escaped? (a b : UInt8) : Option UInt8 := do
  let high ← digitValue? 16 a
  let low ← digitValue? 16 b
  return (high * 16 + low).toUInt8

/-- Decode percent escapes. `plain` refuses bytes that must not stand for themselves, `allowed`
says which escapes may be used. -/
def decode (plain : UInt8 → Option UriFault) (allowed : UInt8 → Bool) :
    Bytes → Except UriFault Bytes
  | [] => .ok []
  | c :: text =>
    if c = '%' then
      match text with
      | a :: b :: text =>
        match escaped? a b with
        | some byte =>
          if allowed byte then (byte :: ·) <$> decode plain allowed text
          else .error (.badEscape [c, a, b])
        | none => .error (.badEscape [c, a, b])
      | text => .error (.badEscape (c :: text))
    else match plain c with
      | some fault => .error fault
      | none => (c :: ·) <$> decode plain allowed text

/-- Decode the escapes of a path, a fragment or a user name, where any byte may be escaped. -/
def decodeAny : Bytes → Except UriFault Bytes := decode (fun _ => none) fun _ => true

/-- The marks that may stand in a host name beside letters and digits. -/
def hostMarks : Bytes := "!$&'()*+,;=:[]<>\"-_.~"

/-- Refuse an ASCII byte that must not stand in a host name. -/
def hostFault? (c : UInt8) : Option UriFault :=
  if 0x80 ≤ c || isLetter c || isDigit c || hostMarks.contains c then none
  else some (.badHostCharacter c)

/-- Decode the escapes of a host name; only bytes past ASCII and the percent sign may be escaped. -/
def decodeHost : Bytes → Except UriFault Bytes := decode hostFault? fun c => 0x80 ≤ c || c = '%'

/-- Decode the escapes of a host's zone; what may stand there may be escaped, and blanks. -/
def decodeZone : Bytes → Except UriFault Bytes :=
  decode hostFault? fun c => c = '%' || c = 32 || isLetter c || isDigit c || hostMarks.contains c

/-- The text before the last byte `c` and the text from that byte on. -/
def cutLast? (c : UInt8) (text : Bytes) : Option (Bytes × Bytes) :=
  (Bytes.cut? c text.reverse).map fun (right, left) => (left.reverse, c :: right.reverse)

/-- Whether a text is empty, or a colon with digits behind it. -/
def isHostTail : Bytes → Bool
  | [] => true
  | c :: digits => c = ':' && digits.all isDigit

/-- Refuse a text behind a host that is not a colon with digits. -/
def checkHostTail (tail : Bytes) : Except UriFault Unit :=
  if isHostTail tail then .ok () else .error (.badHostTail tail)

/-- Decode the escapes of what stands in brackets; a zone starts at an escaped percent sign. -/
def decodeLiteral (literal : Bytes) : Except UriFault Bytes := do
  match Bytes.find? "%25" literal with
  | some zone => return (← decodeHost (literal.take zone)) ++ (← decodeZone (literal.drop zone))
  | none => decodeHost literal

/-- Check what stands in brackets, which must be a grouped network address. -/
def checkLiteral (literal : Bytes) : Except UriFault Unit := do
  let address ← decodeLiteral literal
  match NetAddress.form address with
  | .error fault => throw (.badHostAddress address fault)
  | .ok .dotted => throw .badHostLiteral
  | .ok .grouped => pure ()

/-- Check a host that starts with a bracket, and what follows it. -/
def checkBracketed (host : Bytes) : Except UriFault Unit :=
  match cutLast? ']' host with
  | none => .error .unclosedHost
  | some (literal, rest) => do
    checkHostTail (rest.drop 1)
    checkLiteral (literal.drop 1)

/-- Check a host by name, and what follows it. -/
def checkNamed (host : Bytes) : Except UriFault Unit := do
  checkHostTail ((cutLast? ':' host).map (·.2) |>.getD [])
  let _ ← decodeHost host

/-- Check a host, which may be an address in square brackets, and what follows it. -/
def checkHost (host : Bytes) : Except UriFault Unit :=
  match cutLast? '[' host with
  | none => checkNamed host
  | some ([], _) => checkBracketed host
  | some (_ :: _, _) => .error .badHostLiteral

/-- The marks that may stand in a user part beside letters and digits. -/
def userMarks : Bytes := "-._:~!$&'()*+,;=%@"

/-- Check the user part of an address, name and password apart. -/
def checkUser (user : Bytes) : Except UriFault Unit := do
  if !(user.all fun c => isLetter c || isDigit c || userMarks.contains c) then throw .badUser
  match Bytes.cut? ':' user with
  | some (name, password) =>
    let _ ← decodeAny name
    let _ ← decodeAny password
  | none =>
    let _ ← decodeAny user

/-- Check the part between the double slash and the path. -/
def checkAuthority (authority : Bytes) : Except UriFault Unit :=
  match cutLast? '@' authority with
  | none => checkHost authority
  | some (user, host) => do
    checkHost (host.drop 1)
    checkUser user

/-- A byte that may stand in a scheme after its first letter. -/
def isSchemePart (c : UInt8) : Bool := isLetter c || isDigit c || c = '+' || c = '-' || c = '.'

/-- Take the scheme off the front of an address; an address that starts with none keeps all. -/
def takeScheme (text : Bytes) : Except UriFault (Bytes × Bytes) :=
  match text.dropWhile isSchemePart with
  | c :: rest =>
    if c ≠ ':' then .ok ([], text)
    else match text with
      | first :: _ =>
        if isLetter first then .ok (text.takeWhile isSchemePart, rest)
        else if first = ':' then .error .missingScheme
        else .ok ([], text)
      | [] => .ok ([], text)
  | [] => .ok ([], text)

/-- A control character. -/
def isControl (c : UInt8) : Bool := c < 0x20 || c = 0x7F

/-- The path of an address without its fragment. -/
def mainPath (text : Bytes) : Except UriFault Bytes := do
  if text.any isControl then throw .controlCharacter
  if text = ("*" : Bytes) then return "*"
  let (scheme, rest) ← takeScheme text
  let rest := rest.takeWhile fun (c : UInt8) => c ≠ '?'
  if !Bytes.startsWith rest "/" && !scheme.isEmpty then return []
  if !Bytes.startsWith rest "/" &&
      (rest.takeWhile fun (c : UInt8) => c ≠ '/').contains (Char.toUInt8 ':') then
    throw .colonInFirstSegment
  match Bytes.after? "//" rest with
  | some authority =>
    if scheme.isEmpty && Bytes.startsWith rest "///" then decodeAny rest
    else do
      checkAuthority (authority.takeWhile fun (c : UInt8) => c ≠ '/')
      decodeAny (authority.dropWhile fun (c : UInt8) => c ≠ '/')
  | none => decodeAny rest

/-- The document path that an address stands for. -/
def path (uri : Bytes) : Except UriError Bytes := do
  let (main, fragment) := (Bytes.cut? '#' uri).getD (uri, [])
  let path ← (mainPath main).mapError fun fault => ⟨uri, main, fault⟩
  let _ ← (decodeAny fragment).mapError fun fault => (⟨uri, uri, fault⟩ : UriError)
  return path

end Uri

end TagScript
