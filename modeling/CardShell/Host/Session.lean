import CardShell.Host.Settings
import CardShell.Session

/-!
The shell on a host that keeps its settings in a TOML file.
-/

set_option autoImplicit false

namespace CardShell.Host

def run (l : Launch) : Result := runWith Settings.parse l

end CardShell.Host
