import BEWallet.Rust
import BEWallet.Bytes
import BEWallet.Elements
import BEWallet.Secp
import BEWallet.Reference
import BEWallet.Liquidex.Blind
import BEWallet.Liquidex.Proposal
import BEWallet.Liquidex.Balance
import BEWallet.Wallet
import BEWallet.Selection
import BEWallet.Liquidex.TakeBlind
import BEWallet.Liquidex.Make
import BEWallet.Liquidex.Settle
import BEWallet.Liquidex.Take
import BEWallet.Funds
import BEWallet.Liquidex.TakeSpec
import BEWallet.ListTx
import BEWallet.Send
import BEWallet.Session
