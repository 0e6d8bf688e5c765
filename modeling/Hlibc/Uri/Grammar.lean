import Hlibc.Ctype
import Hlibc.Support.Grammar

/-!
# The grammar of URI references

The rules of the URI standard under its own names, as languages over bytes, and
the components they assign to a text.  The class of the sub-delimiters is left
open, so that the rules can be compared under different classes.
-/

set_option autoImplicit false

namespace Hlibc.Uri

open Grammar
open scoped Computability

/-! ## Characters -/

/-- The bytes from `a` to `b`. -/
def inRange (a b : Char) (c : UInt8) : Bool := decide (chr a ≤ c ∧ c ≤ chr b)

/-- `ALPHA`. -/
def isAlpha (c : UInt8) : Bool := inRange 'a' 'z' c || inRange 'A' 'Z' c

/-- `unreserved`. -/
def isUnreserved (c : UInt8) : Bool :=
  isAlpha c || isdigit c || c == chr '-' || c == chr '.' || c == chr '_' || c == chr '~'

/-- `sub-delims`. -/
def isSubDelim (c : UInt8) : Bool := (ascii "!$&'()*+,;=").contains c

/-- `pct-encoded`. -/
def pctEncoded : Language UInt8 := lit [chr '%'] * one isxdigit * one isxdigit

/-- Characters of a class, and percent-encoded ones. -/
def units (p : UInt8 → Bool) : Language UInt8 := (one p + pctEncoded)∗

/-! ## Rules without sub-delimiters -/

/-- `scheme`. -/
def scheme : Language UInt8 :=
  one isAlpha * (one isAlpha + one isdigit + lit [chr '+'] + lit [chr '-'] + lit [chr '.'])∗

/-- `port`. -/
def port : Language UInt8 := (one isdigit)∗

/-- `dec-octet`. -/
def decOctet : Language UInt8 :=
  one isdigit + one (inRange '1' '9') * one isdigit +
    lit [chr '1'] * one isdigit * one isdigit +
    lit [chr '2'] * one (inRange '0' '4') * one isdigit +
    lit (ascii "25") * one (inRange '0' '5')

/-- `IPv4address`. -/
def ipv4Address : Language UInt8 :=
  decOctet * lit [chr '.'] * decOctet * lit [chr '.'] * decOctet * lit [chr '.'] * decOctet

/-- `h16`. -/
def h16 : Language UInt8 := one isxdigit * opt (one isxdigit) ^ 3

/-- `h16 ":"`. -/
def h16Colon : Language UInt8 := h16 * lit [chr ':']

/-- `ls32`. -/
def ls32 : Language UInt8 := h16 * lit [chr ':'] * h16 + ipv4Address

/-- At most `n` groups in front of a `::`. -/
def h16Front (n : ℕ) : Language UInt8 := opt (opt h16Colon ^ n * h16)

/-- `IPv6address`. -/
def ipv6Address : Language UInt8 :=
  h16Colon ^ 6 * ls32 +
    lit (ascii "::") * h16Colon ^ 5 * ls32 +
    h16Front 0 * lit (ascii "::") * h16Colon ^ 4 * ls32 +
    h16Front 1 * lit (ascii "::") * h16Colon ^ 3 * ls32 +
    h16Front 2 * lit (ascii "::") * h16Colon ^ 2 * ls32 +
    h16Front 3 * lit (ascii "::") * h16Colon * ls32 +
    h16Front 4 * lit (ascii "::") * ls32 +
    h16Front 5 * lit (ascii "::") * h16 +
    h16Front 6 * lit (ascii "::")

/-! ## Rules with sub-delimiters -/

section Rules

variable (sub : UInt8 → Bool)

/-- `pchar`. -/
def pchar : Language UInt8 :=
  one isUnreserved + pctEncoded + one sub + lit [chr ':'] + lit [chr '@']

/-- `userinfo`. -/
def userinfo : Language UInt8 := (one isUnreserved + pctEncoded + one sub + lit [chr ':'])∗

/-- `IPvFuture`. -/
def ipvFuture : Language UInt8 :=
  one (fun c => c == chr 'v' || c == chr 'V') * (one isxdigit * (one isxdigit)∗) *
    lit [chr '.'] * ((one isUnreserved + one sub + lit [chr ':']) *
      (one isUnreserved + one sub + lit [chr ':'])∗)

/-- `IP-literal` of an `IPv6address`. -/
def ipv6Literal : Language UInt8 := lit [chr '['] * ipv6Address * lit [chr ']']

/-- `IP-literal` of an `IPvFuture`. -/
def ipvFutureLiteral : Language UInt8 := lit [chr '['] * ipvFuture sub * lit [chr ']']

/-- `reg-name`. -/
def regName : Language UInt8 := (one isUnreserved + pctEncoded + one sub)∗

/-- `host`. -/
def host : Language UInt8 := ipv6Literal + ipvFutureLiteral sub + ipv4Address + regName sub

/-- `authority`. -/
def authority : Language UInt8 :=
  opt (userinfo sub * lit [chr '@']) * host sub * opt (lit [chr ':'] * port)

/-- `segment`. -/
def segment : Language UInt8 := (pchar sub)∗

/-- `segment-nz`. -/
def segmentNz : Language UInt8 := pchar sub * (pchar sub)∗

/-- The characters of `segment-nz-nc`. -/
def ncChar : Language UInt8 := one isUnreserved + pctEncoded + one sub + lit [chr '@']

/-- `segment-nz-nc`. -/
def segmentNzNc : Language UInt8 := ncChar sub * (ncChar sub)∗

/-- `path-abempty`. -/
def pathAbempty : Language UInt8 := (lit [chr '/'] * segment sub)∗

/-- `path-absolute`. -/
def pathAbsolute : Language UInt8 :=
  lit [chr '/'] * opt (segmentNz sub * (lit [chr '/'] * segment sub)∗)

/-- `path-noscheme`. -/
def pathNoscheme : Language UInt8 := segmentNzNc sub * (lit [chr '/'] * segment sub)∗

/-- `path-rootless`. -/
def pathRootless : Language UInt8 := segmentNz sub * (lit [chr '/'] * segment sub)∗

/-- `path-empty`. -/
def pathEmpty : Language UInt8 := 1

/-- `query`. -/
def query : Language UInt8 := (pchar sub + lit [chr '/'] + lit [chr '?'])∗

/-- `fragment`. -/
def fragment : Language UInt8 := (pchar sub + lit [chr '/'] + lit [chr '?'])∗

/-- `hier-part`. -/
def hierPart : Language UInt8 :=
  lit (ascii "//") * authority sub * pathAbempty sub + pathAbsolute sub + pathRootless sub +
    pathEmpty

/-- `relative-part`. -/
def relativePart : Language UInt8 :=
  lit (ascii "//") * authority sub * pathAbempty sub + pathAbsolute sub + pathNoscheme sub +
    pathEmpty

/-- `[ "?" query ] [ "#" fragment ]`. -/
def queryFragment : Language UInt8 :=
  opt (lit [chr '?'] * query sub) * opt (lit [chr '#'] * fragment sub)

/-- `URI`. -/
def uri : Language UInt8 := scheme * lit [chr ':'] * hierPart sub * queryFragment sub

/-- `relative-ref`. -/
def relativeRef : Language UInt8 := relativePart sub * queryFragment sub

/-- `URI-reference`. -/
def uriReference : Language UInt8 := uri sub + relativeRef sub

end Rules

/-! ## Components -/

/-- The components of an authority. -/
structure Authority where
  userinfo : Option (List UInt8)
  host : List UInt8
  port : Option (List UInt8)

/-- The components of a URI reference; a component that is absent is `none`. -/
structure Parts where
  scheme : Option (List UInt8)
  authority : Option Authority
  path : List UInt8
  query : Option (List UInt8)
  fragment : Option (List UInt8)

/-- A component with the character behind it. -/
def before (c : Char) : Option (List UInt8) → List UInt8
  | none => []
  | some w => w ++ [chr c]

/-- A component with the character in front of it. -/
def behind (c : Char) : Option (List UInt8) → List UInt8
  | none => []
  | some w => chr c :: w

/-- The text of an authority. -/
def Authority.text (a : Authority) : List UInt8 :=
  before '@' a.userinfo ++ (a.host ++ behind ':' a.port)

/-- The text of an authority with the slashes in front of it. -/
def authorityText : Option Authority → List UInt8
  | none => []
  | some a => chr '/' :: chr '/' :: a.text

/-- The text of the components from the path on. -/
def Parts.tailText (parts : Parts) : List UInt8 :=
  parts.path ++ (behind '?' parts.query ++ behind '#' parts.fragment)

/-- The text of all components. -/
def Parts.text (parts : Parts) : List UInt8 :=
  before ':' parts.scheme ++ (authorityText parts.authority ++ parts.tailText)

/-- The components of an authority follow the rules. -/
structure Authority.Valid (sub : UInt8 → Bool) (a : Authority) : Prop where
  userinfo : ∀ w ∈ a.userinfo, w ∈ Uri.userinfo sub
  host : a.host ∈ Uri.host sub
  port : ∀ w ∈ a.port, w ∈ Uri.port

/-- The rule for the path, given which components are in front of it. -/
def pathRule (sub : UInt8 → Bool) (hasScheme hasAuthority : Bool) : Language UInt8 :=
  if hasAuthority then pathAbempty sub
  else if hasScheme then pathAbsolute sub + pathRootless sub + pathEmpty
  else pathAbsolute sub + pathNoscheme sub + pathEmpty

/-- The components follow the rules. -/
structure Parts.Valid (sub : UInt8 → Bool) (parts : Parts) : Prop where
  scheme : ∀ w ∈ parts.scheme, w ∈ Uri.scheme
  authority : ∀ a ∈ parts.authority, a.Valid sub
  path : parts.path ∈ pathRule sub parts.scheme.isSome parts.authority.isSome
  query : ∀ w ∈ parts.query, w ∈ Uri.query sub
  fragment : ∀ w ∈ parts.fragment, w ∈ Uri.fragment sub

/-- The grammar assigns the components `parts` to the text `s`. -/
def Assigns (sub : UInt8 → Bool) (parts : Parts) (s : List UInt8) : Prop :=
  parts.Valid sub ∧ parts.text = s

end Hlibc.Uri
