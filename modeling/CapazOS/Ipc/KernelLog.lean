import CapazOS.Ipc.Console

/-!
# The kernel log

`cka_console_write` cuts a text into messages for the kernel-log endpoint, and hands the rest to
`uart_write` as soon as a message cannot be sent. Between two messages the other threads may do
anything to the endpoints.
-/

namespace CapazOS

open Function List

end CapazOS
