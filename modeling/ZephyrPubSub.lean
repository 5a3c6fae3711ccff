import ZephyrPubSub.RefCount
import ZephyrPubSub.Isolation
import ZephyrPubSub.Progress
import ZephyrPubSub.Order
import ZephyrPubSub.Transition
import ZephyrPubSub.Allocators
import ZephyrPubSub.Stepwise
import ZephyrPubSub.Reentry
import ZephyrPubSub.Linking
import ZephyrPubSub.Discipline
import ZephyrPubSub.Overtaking
import ZephyrPubSub.Spread
import ZephyrPubSub.Section
import ZephyrPubSub.Depth
import ZephyrPubSub.Priority
import ZephyrPubSub.Polling
import ZephyrPubSub.Dispatch
import ZephyrPubSub.Answers
import ZephyrPubSub.Bitarray
import ZephyrPubSub.Recycling
import ZephyrPubSub.Payload
import ZephyrPubSub.Adding
import ZephyrPubSub.Atomics
import ZephyrPubSub.Drain
import ZephyrPubSub.Threads
import ZephyrPubSub.FirstWord
import ZephyrPubSub.EventLoop
import ZephyrPubSub.Turns
import ZephyrPubSub.Replicas
