import LineScope.Json.Printer
import LineScope.Digest.Sha256
import LineScope.Text.Basic

/-!
Fingerprints of documents: the digest of the canonical form, or a slice of it.
-/

namespace LineScope.Json

def digest (v : Json) : Text := (Digest.hexDigest (canonical v).toUTF8.toList).toArray

/-- The digest up to a signed offset. -/
def fingerprint (v : Json) (length : Int) : String := ((digest v).slice 0 length).toString

/-- How many digits of the digest tell documents apart, unless asked otherwise. -/
def fingerprintLength : Int := 16

end LineScope.Json
