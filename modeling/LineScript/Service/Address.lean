/-
# Addresses of web requests

What a web request is sent to: a path, or a full address with a scheme and a host before the path. A
question mark ends the path. Characters of the path may be written as percent signs and hexadecimal
digits.
-/

import LineScript.Files.Path

namespace LineScript.Service

open LineScript.Text (Bytes)

/-- Whether a character can be part of the name of a scheme. -/
def isSchemeChar (c : Char) : Bool := c.isAlphanum || c == '+' || c == '-' || c == '.'

/-- What follows the scheme of an address, if it has one. -/
def afterScheme? (cs : List Char) : Option (List Char) :=
  let scheme := cs.takeWhile isSchemeChar
  if (scheme.head?.map Char.isAlpha).getD false && (cs.drop scheme.length).head? == some ':' then
    some (cs.drop (scheme.length + 1))
  else none

/-- The bytes that characters stand for, some of them written in hexadecimal digits. -/
def unescaped? : List Char → Option Bytes
  | [] => some []
  | '%' :: a :: b :: rest => do
    let bytes ← Text.ofHexChars? [a, b]
    let more ← unescaped? rest
    some (bytes ++ more)
  | '%' :: _ => none
  | c :: rest => (unescaped? rest).map (Text.encode (String.singleton c) ++ ·)

/-- Whether a character can be part of the name of a method. -/
def isMethodChar (c : Char) : Bool := c.isAlphanum || "!#$%&'*+-.^_\x60|~".toList.contains c

/-- Whether a character can be part of an address. -/
def isAddressChar (c : Char) : Bool := 0x20 < c.toNat && c.toNat ≠ 0x7f

/-- Whether a character of the basic alphabet can be part of a host as it is. -/
def isHostChar (c : Char) : Bool := c.isAlphanum || "-_.~!$&'()*+,;=:[]<>\x22".toList.contains c

/-- Whether characters can be a host. Only percent signs and characters beyond the basic alphabet may
be written in hexadecimal digits. -/
def isHost : List Char → Bool
  | [] => true
  | '%' :: a :: b :: rest =>
    (match Text.ofHexChars? [a, b] with
      | some [byte] => 0x80 ≤ byte.toNat || byte.toNat = 0x25
      | _ => false) && isHost rest
  | '%' :: _ => false
  | c :: rest => (0x80 ≤ c.toNat || isHostChar c) && isHost rest

/-- Whether characters can be the port of a host, its colon included; a port may be missing. -/
def isPort : List Char → Bool
  | [] => true
  | ':' :: digits => digits.all Char.isDigit
  | _ => false

/-- What follows the last of a character, that character included, if there is one. -/
def fromLast (c : Char) (cs : List Char) : List Char :=
  if cs.contains c then c :: (cs.reverse.takeWhile (· ≠ c)).reverse else []

/-- Whether characters can be a host with a port. A host in brackets has its port after them. -/
def isHostWithPort (cs : List Char) : Bool :=
  let portFits :=
    if cs.contains '[' then cs.contains ']' && isPort ((fromLast ']' cs).drop 1)
    else isPort (fromLast ':' cs)
  portFits && isHost cs

/-- Whether characters can name the user before a host. -/
def isUser (cs : List Char) : Bool :=
  cs.all (fun c => c.isAlphanum || "-._:~!$&'()*+,;=%@".toList.contains c) && (unescaped? cs).isSome

/-- Whether characters can be the part of an address between its scheme and its path. -/
def isAuthority (cs : List Char) : Bool :=
  if cs.contains '@' then
    isHostWithPort ((fromLast '@' cs).drop 1) && isUser (cs.take (cs.length - (fromLast '@' cs).length))
  else isHostWithPort cs

/-- The path of an address, which is empty if the address names none; nothing if the address is
malformed. -/
def pathOf? (address : String) : Option String :=
  let cs := address.toList
  let scheme? := afterScheme? cs
  let rest := (scheme?.getD cs).takeWhile (· ≠ '?')
  let path? : Option (List Char) := match scheme?.isSome, rest with
    | true, '/' :: '/' :: rest =>
      if isAuthority (rest.takeWhile (· ≠ '/')) then some (rest.dropWhile (· ≠ '/')) else none
    | _, '/' :: rest => some ('/' :: rest)
    | hasScheme, _ => if hasScheme then some [] else none
  if cs.all isAddressChar then (path?.bind unescaped?).map Text.decode else none

/-- The path that a request is sent to. A request for a connection may name nothing but a host. -/
def requestPath? (method address : String) : Option String :=
  if !method.toList.all isMethodChar then none
  else if method = "CONNECT" && address.toList.head? ≠ some '/' then pathOf? ("http://" ++ address)
  else pathOf? address

/-- The clean form of a path. A slash at the end stays. -/
def cleanPath (path : String) : String :=
  let rooted := if Path.isAbsolute path then path else "/" ++ path
  let clean := Path.clean rooted
  if rooted.toList.getLast? == some '/' && clean ≠ "/" then clean ++ "/" else clean

end LineScript.Service
