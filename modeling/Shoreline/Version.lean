/-!
# Version of the transfer format
-/

namespace Shoreline

def version : String := "0.1.0"

end Shoreline
