import TagScript.Token.Basic

/-!
# Writing a token tree out as a script

Sibling tokens are written on lines of their own, the clauses of a `for` header with
semicolons between them. An arrow continues the entry in front of it, so that a parameter
list and its `=>` stay on one logical line. Empty leaves matter only as `for` clauses.
-/

namespace TagScript

/-- The mark of an arrow function. -/
def arrow : Bytes := "=>"

namespace Token

/-- Append `text` to the newest entry, after a blank. -/
def extendNewest (text : Bytes) : List Bytes → List Bytes
  | [] => []
  | newest :: older => (newest ++ " " ++ text) :: older

mutual

/-- The entries after a token, newest first, given those before it. `clauses` says whether the
entries are the clauses of a `for` header. -/
def entries (clauses : Bool) (before : List Bytes) : Token → List Bytes
  | .leaf text _ =>
    let text := text.trim
    if text.isEmpty then if clauses then text :: before else before
    else if text.startsWith arrow && !before.isEmpty then extendNewest text before
    else text :: before
  | .block signature children _ =>
    let continues := signature.trim.startsWith arrow && !before.isEmpty
    let title := if continues then Bytes.trim (signature.trim.drop 2) else signature.trim
    let before := if continues then extendNewest arrow before else before
    let header := isForHeader title
    let body := Bytes.join (if header then ";" else "\n") (entriesAll header [] children).reverse
    (title ++ "\n" ++ body ++ "\n" ++ signatureCloser signature) :: before

/-- The entries after a sequence of tokens, newest first, given those before it. -/
def entriesAll (clauses : Bool) (before : List Bytes) : List Token → List Bytes
  | [] => before
  | t :: ts => entriesAll clauses (entries clauses before t) ts

end

/-- The script that a token sequence stands for. -/
def render (tokens : List Token) : Bytes := Bytes.join "\n" (entriesAll false [] tokens).reverse

end Token

end TagScript
